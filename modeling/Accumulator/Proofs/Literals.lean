import Accumulator.Proofs.Assembling
import Mathlib

/-! Literals in ASCII. A literal is digits of ten with a sign or without one, or hexadecimal or
binary digits behind a tag, and single underscores may stand between digits. The assembler takes a
text without blanks for a number just if it is a literal, and then for the number that it is of. -/

namespace Accumulator

namespace Text

/-- Trimming takes off ends that belong to the class, and what is left has neither end in it. -/
theorem trimBy_spec (p : Char → Bool) (s : List Char) :
    ∃ before after, s = before ++ trimBy p s ++ after ∧ (∀ c ∈ before, p c = true) ∧
      (∀ c ∈ after, p c = true) ∧ (∀ c ∈ (trimBy p s).head?, p c = false) ∧
      ∀ c ∈ (trimBy p s).getLast?, p c = false := by
  have front : s.takeWhile p ++ s.dropWhile p = s := List.takeWhile_append_dropWhile
  have back : trimBy p s ++ (s.dropWhile p).rtakeWhile p = s.dropWhile p :=
    List.rdropWhile_append_rtakeWhile
  refine ⟨s.takeWhile p, (s.dropWhile p).rtakeWhile p, ?_, fun c => List.mem_takeWhile_imp,
    fun c => List.mem_rtakeWhile_imp, fun c hc => ?_, fun c hc => ?_⟩
  · rw [List.append_assoc, back, front]
  · have first : (s.dropWhile p).head? = some c := by
      rw [← back, List.head?_append, hc, Option.some_or]
    have stop := List.head?_dropWhile_not p s
    rwa [first] at stop
  · obtain ⟨ne, rfl⟩ := List.mem_getLast?_eq_getLast hc
    exact Bool.eq_false_of_not_eq_true (List.rdropWhile_last_not p _ ne)

theorem trimBy_eq_nil_iff {p : Char → Bool} {s : List Char} :
    trimBy p s = [] ↔ ∀ c ∈ s, p c = true := by
  constructor
  · intro none
    obtain ⟨b, a, eq, hb, ha, -, -⟩ := trimBy_spec p s
    rw [eq, none, List.append_nil]
    exact List.forall_mem_append.mpr ⟨hb, ha⟩
  · intro all
    have trimmed : trimBy p (s ++ [] ++ []) = [] := trimBy_between all (by simp) (by simp) (by simp)
    simpa using trimmed

theorem trimBy_cons {p : Char → Bool} {c : Char} (hc : p c = false) (s : List Char) :
    ∃ rest, trimBy p (c :: s) = c :: rest := by
  have eq : trimBy p (c :: s) = (c :: s).rdropWhile p := by simp [trimBy, List.rdropWhile, hc]
  have left := List.rdropWhile_prefix p (l := c :: s)
  rw [eq]
  cases h : (c :: s).rdropWhile p with
  | nil => simp [hc] at h
  | cons b rest =>
    rw [h] at left
    exact ⟨rest, by rw [(List.cons_prefix_cons.mp left).1]⟩

end Text

namespace Number

open Text

/-- The digits of a number in a base, the leading one first, with single underscores between them
or without. -/
inductive Grouped (base : Nat) : Nat → List Char → Prop
  | first {c : Char} {d : Nat} (value : digitValue c = some d) (small : d < base) :
      Grouped base d [c]
  | next {n d : Nat} {s : List Char} {c : Char} (before : Grouped base n s)
      (value : digitValue c = some d) (small : d < base) : Grouped base (n * base + d) (s ++ [c])
  | apart {n d : Nat} {s : List Char} {c : Char} (before : Grouped base n s)
      (value : digitValue c = some d) (small : d < base) :
      Grouped base (n * base + d) (s ++ ['_', c])

/-- How many digits there are among underscores. -/
def figures (s : List Char) : Nat := (s.filter (· != '_')).length

/-- The letters that announce a base behind a zero. -/
inductive Tag : Nat → Char → Prop
  | hexadecimal {c : Char} (letter : c = 'x' ∨ c = 'X') : Tag 16 c
  | binary {c : Char} (letter : c = 'b' ∨ c = 'B') : Tag 2 c

/-- An integer in decimal, with a sign or without one. -/
inductive Decimal : Int → List Char → Prop
  | unsigned {n : Nat} {s : List Char} (digits : Grouped 10 n s)
      (short : figures s ≤ maxDecimalDigits) : Decimal n s
  | positive {n : Nat} {s : List Char} (digits : Grouped 10 n s)
      (short : figures s ≤ maxDecimalDigits) : Decimal n ('+' :: s)
  | negative {n : Nat} {s : List Char} (digits : Grouped 10 n s)
      (short : figures s ≤ maxDecimalDigits) : Decimal (-n) ('-' :: s)

/-- The ways to write an integer: behind a tag, which one underscore may set off, and in decimal. -/
inductive Literal : Int → List Char → Prop
  | tagged {base n : Nat} {tag : Char} {joint s : List Char} (announced : Tag base tag)
      (joined : joint = [] ∨ joint = ['_']) (digits : Grouped base n s) :
      Literal n ('0' :: tag :: (joint ++ s))
  | decimal {n : Int} {s : List Char} (written : Decimal n s) : Literal n s

/-! ### Digits and underscores -/

theorem ne_underscore {c : Char} {d : Nat} (h : digitValue c = some d) : c ≠ '_' := by
  rintro rfl
  cases h

theorem wellGrouped_append {s : List Char} {c : Char} (h : wellGrouped s = true) (hc : c ≠ '_') :
    wellGrouped (s ++ [c]) = true ∧ wellGrouped (s ++ ['_', c]) = true := by
  fun_induction wellGrouped s with
  | case1 => contradiction
  | case2 a => simp_all [wellGrouped]
  | case3 a d rest ih1 ih2 =>
    obtain ⟨ha, h⟩ := Bool.and_eq_true_iff.mp h
    split at h
    · simp_all [wellGrouped]
    · simp_all [wellGrouped]

theorem isDigitIn_iff {base : Nat} {c : Char} :
    isDigitIn base c = true ↔ ∃ d, digitValue c = some d ∧ d < base := by
  simp [isDigitIn, Option.any_eq_true]

namespace Grouped

variable {base n : Nat} {s : List Char}

theorem wellGrouped (h : Grouped base n s) : wellGrouped s = true := by
  induction h with
  | first value _ => simpa [Number.wellGrouped] using ne_underscore value
  | next _ value _ ih => exact (wellGrouped_append ih (ne_underscore value)).1
  | apart _ value _ ih => exact (wellGrouped_append ih (ne_underscore value)).2

theorem ofDigits_eq (h : Grouped base n s) : ofDigits base (s.filter (· != '_')) = n := by
  induction h with
  | first value _ => simp [ofDigits, ne_underscore value, value]
  | next _ value _ ih | apart _ value _ ih =>
    simp [List.filter_append, ne_underscore value, ofDigits_append, ih, value]

theorem isDigitIn (h : Grouped base n s) : ∀ c ∈ s, (isDigitIn base c || c == '_') = true := by
  induction h with
  | first value small => simp [isDigitIn_iff.mpr ⟨_, value, small⟩]
  | next _ value small ih | apart _ value small ih =>
    simpa [or_imp, forall_and, isDigitIn_iff.mpr ⟨_, value, small⟩] using ih

theorem lt (h : Grouped base n s) : n < base ^ figures s := by
  have step : ∀ {n d k : Nat}, n < base ^ k → d < base → n * base + d < base ^ (k + 1) := by
    intro n d k hn hd
    calc n * base + d < n * base + base := Nat.add_lt_add_left hd _
      _ = (n + 1) * base := (Nat.succ_mul n base).symm
      _ ≤ base ^ k * base := Nat.mul_le_mul_right base hn
      _ = base ^ (k + 1) := (pow_succ base k).symm
  -- A digit more multiplies the bound by the base, with an underscore before it or without.
  induction h with
  | first value small => simpa [figures, ne_underscore value] using small
  | next _ value small ih | apart _ value small ih =>
    simpa [figures, List.filter_append, ne_underscore value] using step ih small

/-- A digit may stand behind the text: at the start, behind digits, and behind an underscore that is
behind digits. -/
def Opens (base : Nat) (s : List Char) : Prop :=
  ∀ c, Number.isDigitIn base c = true → ∃ n, Grouped base n (s ++ [c])

theorem opens_nil : Opens base [] := by
  intro c hc
  obtain ⟨d, value, small⟩ := isDigitIn_iff.mp hc
  exact ⟨d, .first value small⟩

theorem opens (h : Grouped base n s) : Opens base s ∧ Opens base (s ++ ['_']) := by
  refine ⟨fun c hc => ?_, fun c hc => ?_⟩ <;> obtain ⟨d, value, small⟩ := isDigitIn_iff.mp hc
  · exact ⟨_, h.next value small⟩
  · exact ⟨_, by simpa using h.apart value small⟩

/-- Where a digit may stand, a run may that begins and ends in digits and doubles no underscore. -/
theorem of_wellGrouped {t : List Char} (opens : Opens base s)
    (grouped : Number.wellGrouped t = true)
    (run : ∀ c ∈ t, Number.isDigitIn base c = true ∨ c = '_') : ∃ n, Grouped base n (s ++ t) := by
  fun_induction Number.wellGrouped t generalizing s with
  | case1 => contradiction
  | case2 c => exact opens c ((run c (by simp)).resolve_right (by simpa using grouped))
  | case3 c b rest behind further =>
    obtain ⟨hc, tail⟩ := Bool.and_eq_true_iff.mp grouped
    obtain ⟨m, digits⟩ := opens c ((run c (by simp)).resolve_right (by simpa using hc))
    split at tail
    next underscore =>
      obtain rfl : b = '_' := by simpa using underscore
      simpa using behind digits.opens.2 tail fun a ha => run a (by simp [ha])
    next =>
      simpa using further digits.opens.1 tail fun a ha => run a (List.mem_cons_of_mem c ha)

end Grouped

theorem readDigits_eq_ok {base n : Nat} {s : List Char} :
    readDigits base s = .ok n ↔
      Grouped base n s ∧ (base = 10 → figures s ≤ maxDecimalDigits) := by
  constructor
  · intro h
    simp only [readDigits] at h
    split at h
    · cases h
    split at h
    · cases h
    split at h
    · cases h
    next grouped short full =>
    have all : (s.takeWhile fun c => isDigitIn base c || c == '_') = s :=
      (List.takeWhile_prefix _).eq_of_length (by simpa using full)
    rw [all] at grouped short h
    have run := List.takeWhile_eq_self_iff.mp all
    obtain ⟨m, digits⟩ : ∃ m, Grouped base m s :=
      Grouped.of_wellGrouped Grouped.opens_nil (by simpa using grouped) (by simpa using run)
    obtain rfl : m = n := by simpa [digits.ofDigits_eq] using h
    exact ⟨digits, fun ten => Nat.not_lt.mp fun long => short ⟨ten, long⟩⟩
  · rintro ⟨digits, short⟩
    have all : (s.takeWhile fun c => isDigitIn base c || c == '_') = s :=
      List.takeWhile_eq_self_iff.mpr digits.isDigitIn
    have few : ¬(base = 10 ∧ maxDecimalDigits < (s.filter (· != '_')).length) :=
      fun h => absurd (short h.1) (Nat.not_le.mpr h.2)
    simp [readDigits, all, digits.wellGrouped, few, digits.ofDigits_eq]

/-! ### What literals are made of -/

theorem isAlphanum_of_digitValue {c : Char} {d : Nat} (h : digitValue c = some d) :
    c.isAlphanum = true := by
  have ascii : c.toNat < 128 := by
    have upTo : ∀ {last : Char}, c ≤ last → c.toNat ≤ last.toNat :=
      fun le => UInt32.le_iff_toNat_le.mp le
    unfold digitValue at h
    split at h
    next digit => exact (upTo digit.2).trans_lt (by decide)
    split at h
    next small => exact (upTo small.2).trans_lt (by decide)
    split at h
    next capital => exact (upTo capital.2).trans_lt (by decide)
    next => cases h
  exact of_ascii (fun c => (digitValue c).isSome = true → c.isAlphanum = true) (by decide) ascii
    (by rw [h]; rfl)

/-- A character that literals are made of: a letter, a digit, an underscore or a sign. -/
def IsLiteralChar (c : Char) : Prop := c.isAlphanum = true ∨ c = '_' ∨ c = '+' ∨ c = '-'

theorem Grouped.literalChar {base n : Nat} {s : List Char} (h : Grouped base n s) :
    ∀ c ∈ s, IsLiteralChar c := by
  intro c hc
  rcases Bool.or_eq_true_iff.mp (h.isDigitIn c hc) with digit | underscore
  · obtain ⟨d, value, -⟩ := isDigitIn_iff.mp digit
    exact .inl (isAlphanum_of_digitValue value)
  · exact .inr (.inl (by simpa using underscore))

theorem Grouped.ne_nil {base n : Nat} {s : List Char} (h : Grouped base n s) : s ≠ [] := by
  rintro rfl
  cases h.wellGrouped

theorem Literal.literalChar {n : Int} {s : List Char} (h : Literal n s) :
    ∀ c ∈ s, IsLiteralChar c := by
  have alphanum : ∀ {c : Char}, c.isAlphanum = true → IsLiteralChar c := .inl
  cases h with
  | tagged announced joined digits =>
    rw [List.forall_mem_cons, List.forall_mem_cons, List.forall_mem_append]
    refine ⟨alphanum (by decide), ?_, ?_, digits.literalChar⟩
    · cases announced with
      | hexadecimal letter | binary letter =>
        rcases letter with rfl | rfl <;> exact alphanum (by decide)
    · rcases joined with rfl | rfl
      · simp
      · simp [IsLiteralChar]
  | decimal written =>
    cases written with
    | unsigned digits _ => exact digits.literalChar
    | positive digits _ | negative digits _ =>
      exact List.forall_mem_cons.mpr ⟨by simp [IsLiteralChar], digits.literalChar⟩

theorem Literal.ne_nil {n : Int} {s : List Char} (h : Literal n s) : s ≠ [] := by
  rcases h with _ | ⟨⟨digits, -⟩ | _ | _⟩
  · simp
  · exact digits.ne_nil
  · simp
  · simp

/-! ### Signs -/

/-- A literal without its sign. -/
def magnitude : List Char → List Char
  | '-' :: rest => rest
  | '+' :: rest => rest
  | s => s

/-- The factor that the sign of a literal stands for, which is one where there is no sign. -/
def signOf : List Char → Int
  | '-' :: _ => -1
  | _ => 1

section Signs

variable {read : List Char → Except LiteralError Nat} {s : List Char} {n : Int}

/-- A minus sign is in front, or a plus sign, or none. -/
theorem sign_cases (s : List Char) :
    (∃ t, s = '-' :: t) ∨ (∃ t, s = '+' :: t) ∨ magnitude s = s ∧ signOf s = 1 := by
  unfold magnitude
  split
  · exact .inl ⟨_, rfl⟩
  · exact .inr (.inl ⟨_, rfl⟩)
  next noMinus _ =>
    refine .inr (.inr ⟨rfl, ?_⟩)
    unfold signOf
    split
    · exact absurd rfl (noMinus _)
    · rfl

theorem sign_none (h : ∀ c ∈ s.head?, c ≠ '-' ∧ c ≠ '+') : magnitude s = s ∧ signOf s = 1 := by
  rcases sign_cases s with ⟨t, rfl⟩ | ⟨t, rfl⟩ | unsigned
  · exact absurd rfl (h '-' rfl).1
  · exact absurd rfl (h '+' rfl).2
  · exact unsigned

theorem magnitude_subset (s : List Char) : magnitude s ⊆ s := by
  rcases sign_cases s with ⟨t, rfl⟩ | ⟨t, rfl⟩ | ⟨eq, -⟩
  · exact List.subset_cons_self _ t
  · exact List.subset_cons_self _ t
  · rw [eq]
    exact List.Subset.refl s

/-- A literal is read as the number behind its sign, with that sign. -/
theorem readSigned_eq_ok :
    readSigned read s = .ok n ↔ ∃ m : Nat, read (magnitude s) = .ok m ∧ signOf s * m = n := by
  have signed : readSigned read s = (read (magnitude s)).map fun m => signOf s * (m : Int) := by
    unfold readSigned
    split
    · simp [magnitude, signOf]
    · simp [magnitude, signOf]
    · simp [magnitude, signOf]
  rw [signed]
  cases read (magnitude s) <;> simp [Except.map]

theorem readSigned_minus :
    readSigned read ('-' :: s) = .ok n ↔ ∃ m : Nat, read s = .ok m ∧ -(m : Int) = n := by
  simpa [magnitude, signOf] using @readSigned_eq_ok read ('-' :: s) n

theorem readSigned_unsigned (h : ∀ c ∈ s.head?, c ≠ '-' ∧ c ≠ '+') :
    readSigned read s = .ok n ↔ ∃ m : Nat, read s = .ok m ∧ (m : Int) = n := by
  obtain ⟨eq, sign⟩ := sign_none h
  simp only [readSigned_eq_ok, eq, sign, one_mul]

theorem natAbs_signOf (s : List Char) (m : Nat) : (signOf s * m).natAbs = m := by
  rcases sign_cases s with ⟨t, rfl⟩ | ⟨t, rfl⟩ | ⟨-, sign⟩
  · simp [signOf]
  · simp [signOf]
  · simp [sign]

end Signs

theorem Grouped.notSign {base n : Nat} {s : List Char} (h : Grouped base n s) :
    ∀ c ∈ s.head?, c ≠ '-' ∧ c ≠ '+' := by
  intro c hc
  have digit := h.isDigitIn c (List.mem_of_mem_head? hc)
  constructor
  · rintro rfl
    cases digit
  · rintro rfl
    cases digit

theorem decimal_iff {n : Int} {s : List Char} : Decimal n s ↔
    ∃ m : Nat, (Grouped 10 m (magnitude s) ∧ figures (magnitude s) ≤ maxDecimalDigits) ∧
      signOf s * m = n := by
  constructor
  · intro written
    cases written with
    | unsigned digits short =>
      obtain ⟨eq, sign⟩ := sign_none digits.notSign
      rw [eq, sign]
      exact ⟨_, ⟨digits, short⟩, one_mul _⟩
    | positive digits short => exact ⟨_, ⟨digits, short⟩, one_mul _⟩
    | negative digits short => exact ⟨_, ⟨digits, short⟩, neg_one_mul _⟩
  · rintro ⟨m, ⟨digits, short⟩, rfl⟩
    rcases sign_cases s with ⟨t, rfl⟩ | ⟨t, rfl⟩ | ⟨eq, sign⟩
    · exact (neg_one_mul (m : Int)).symm ▸ .negative digits short
    · exact (one_mul (m : Int)).symm ▸ .positive digits short
    · rw [eq] at digits short
      rw [sign, one_mul]
      exact .unsigned digits short

/-! ### Capitals -/

section Capitals

variable {base n : Nat} {s : List Char}

theorem digitValue_capital {c : Char} (h : Visible c) : digitValue c.toUpper = digitValue c :=
  of_ascii (fun c => digitValue c.toUpper = digitValue c) (by decide) h.ascii

theorem capital_eq {c : Char} (h : Visible c) :
    (c.toUpper = '_' ↔ c = '_') ∧ (c.toUpper = '0' ↔ c = '0') ∧ (c.toUpper = '-' ↔ c = '-') ∧
      (c.toUpper = '+' ↔ c = '+') :=
  of_ascii (fun c => (c.toUpper = '_' ↔ c = '_') ∧ (c.toUpper = '0' ↔ c = '0') ∧
    (c.toUpper = '-' ↔ c = '-') ∧ (c.toUpper = '+' ↔ c = '+')) (by decide) h.ascii

theorem grouped_capitals (h : ∀ c ∈ s, Visible c) :
    Grouped base n (s.map Char.toUpper) ↔ Grouped base n s := by
  constructor
  · intro digits
    generalize eq : s.map Char.toUpper = t at digits
    induction digits generalizing s with
    | first value small =>
      obtain ⟨c, rfl, rfl⟩ := List.map_eq_singleton_iff.mp eq
      exact .first (digitValue_capital (h c (by simp)) ▸ value) small
    | next _ value small ih =>
      obtain ⟨t, u, rfl, before, last⟩ := List.map_eq_append_iff.mp eq
      obtain ⟨c, rfl, rfl⟩ := List.map_eq_singleton_iff.mp last
      refine .next (ih (fun c hc => h c (by simp [hc])) before) ?_ small
      exact digitValue_capital (h c (by simp)) ▸ value
    | apart _ value small ih =>
      obtain ⟨t, u, rfl, before, last⟩ := List.map_eq_append_iff.mp eq
      obtain ⟨b, _, rfl, hb, last⟩ := List.map_eq_cons_iff.mp last
      obtain ⟨c, rfl, rfl⟩ := List.map_eq_singleton_iff.mp last
      obtain rfl := (capital_eq (h b (by simp))).1.mp hb
      refine .apart (ih (fun c hc => h c (by simp [hc])) before) ?_ small
      exact digitValue_capital (h c (by simp)) ▸ value
  · intro digits
    induction digits with
    | first value small => exact .first ((digitValue_capital (h _ (by simp))).trans value) small
    | next _ value small ih =>
      rw [List.map_append]
      exact .next (ih fun c hc => h c (by simp [hc]))
        ((digitValue_capital (h _ (by simp))).trans value) small
    | apart _ value small ih =>
      rw [List.map_append]
      exact .apart (ih fun c hc => h c (by simp [hc]))
        ((digitValue_capital (h _ (by simp))).trans value) small

theorem figures_capitals (h : ∀ c ∈ s, Visible c) : figures (s.map Char.toUpper) = figures s := by
  rw [figures, List.filter_map, List.length_map, figures]
  refine congrArg List.length (List.filter_congr fun c hc => ?_)
  simp [bne, (capital_eq (h c hc)).1]

theorem readDigits_capitals (h : ∀ c ∈ s, Visible c) :
    readDigits base (s.map Char.toUpper) = .ok n ↔
      Grouped base n s ∧ (base = 10 → figures s ≤ maxDecimalDigits) := by
  rw [readDigits_eq_ok, grouped_capitals h, figures_capitals h]

theorem plainLiteral_capitals (h : ∀ c ∈ s, Visible c) :
    plainLiteral (s.map Char.toUpper) = s.map Char.toUpper :=
  plainLiteral_visible (by simpa using fun c hc => (h c hc).toUpper)

theorem Tag.tagBase {tag : Char} (h : Tag base tag) :
    tagBase tag.toUpper = some base ∧ base ≠ 10 := by
  cases h with
  | hexadecimal letter | binary letter => rcases letter with rfl | rfl <;> decide

theorem Tag.of_toUpper {c : Char} (h : Visible c) (announced : Tag base c.toUpper) :
    Tag base c := by
  cases announced with
  | hexadecimal letter =>
    exact .hexadecimal (of_ascii (fun c => c.toUpper = 'x' ∨ c.toUpper = 'X' → c = 'x' ∨ c = 'X')
      (by decide) h.ascii letter)
  | binary letter =>
    exact .binary (of_ascii (fun c => c.toUpper = 'b' ∨ c.toUpper = 'B' → c = 'b' ∨ c = 'B')
      (by decide) h.ascii letter)

theorem grouped_afterTag {m : Nat} {s : List Char} :
    Grouped base m (afterTag s) ↔
      ∃ joint t, s = joint ++ t ∧ (joint = [] ∨ joint = ['_']) ∧ Grouped base m t := by
  constructor
  · intro digits
    unfold afterTag at digits
    split at digits
    · exact ⟨['_'], _, rfl, .inr rfl, digits⟩
    · exact ⟨[], _, rfl, .inl rfl, digits⟩
  · rintro ⟨joint, t, rfl, rfl | rfl, digits⟩
    · have noJoint : ∀ rest, t ≠ '_' :: rest := by
        rintro rest rfl
        have := digits.wellGrouped
        cases rest <;> simp [wellGrouped] at this
      unfold afterTag
      split
      · exact absurd ‹_› (noJoint _)
      · exact digits
    · exact digits

/-- Behind its tag, a number is read in its base. -/
theorem readIn_tagged {tag : Char} {n : Int} (announced : Tag base tag)
    (h : ∀ c ∈ '0' :: tag :: s, Visible c) :
    readIn base (('0' :: tag :: s).map Char.toUpper) = .ok n ↔
      ∃ m : Nat, Grouped base m (afterTag s) ∧ (m : Int) = n := by
  obtain ⟨inBase, notTen⟩ := announced.tagBase
  have hs : ∀ c ∈ s, Visible c := fun c hc => h c (by simp [hc])
  have joint : afterTag (s.map Char.toUpper) = (afterTag s).map Char.toUpper := by
    cases s with
    | nil => rfl
    | cons c s =>
      by_cases hc : c = '_'
      · simp [hc, afterTag]
      · simp [afterTag, hc, (capital_eq (hs c (by simp))).1]
  have visible : ∀ c ∈ afterTag s, Visible c := by
    unfold afterTag
    split
    · exact fun c hc => hs c (by simp [hc])
    · exact hs
  have tagged : readUnsignedIn base ('0' :: tag.toUpper :: s.map Char.toUpper) =
      readDigits base ((afterTag s).map Char.toUpper) := by
    rw [readUnsignedIn, if_pos inBase, joint]
  rw [readIn, plainLiteral_capitals h]
  change readSigned _ ('0' :: tag.toUpper :: s.map Char.toUpper) = _ ↔ _
  rw [readSigned_unsigned (by rintro c ⟨⟩; decide), tagged]
  simp only [readDigits_capitals visible, notTen, false_imp_iff, and_true]

theorem sign_capitals (h : ∀ c ∈ s, Visible c) :
    magnitude (s.map Char.toUpper) = (magnitude s).map Char.toUpper ∧
      signOf (s.map Char.toUpper) = signOf s := by
  rcases s with _ | ⟨c, t⟩
  · exact ⟨rfl, rfl⟩
  by_cases minus : c = '-'
  · subst minus
    exact ⟨rfl, rfl⟩
  by_cases plus : c = '+'
  · subst plus
    exact ⟨rfl, rfl⟩
  · have capitals := capital_eq (h c (by simp))
    have unsigned : magnitude (c :: t) = c :: t ∧ signOf (c :: t) = 1 :=
      sign_none (by simp [minus, plus])
    have capital : magnitude ((c :: t).map Char.toUpper) = (c :: t).map Char.toUpper ∧
        signOf ((c :: t).map Char.toUpper) = 1 := sign_none (by simp [capitals, minus, plus])
    rw [capital.1, capital.2, unsigned.1, unsigned.2]
    exact ⟨rfl, rfl⟩

theorem readIn_ten {n : Int} (h : ∀ c ∈ s, Visible c) :
    readIn 10 (s.map Char.toUpper) = .ok n ↔ Decimal n s := by
  have visible : ∀ c ∈ magnitude s, Visible c := fun c hc => h c (magnitude_subset s hc)
  obtain ⟨number, sign⟩ := sign_capitals h
  rw [readIn, plainLiteral_capitals h, readSigned_eq_ok, number, sign, decimal_iff]
  simp only [readUnsignedIn_ten, readDigits_capitals visible, true_imp_iff]

end Capitals

end Number

namespace Assembler

open Number

/-- A number is read in capitals, and what they begin with decides on its base. -/
theorem immediate_eq_ok_iff {t digits : List Char} {n : Int}
    (capitals : (Text.trim t).flatMap capital = digits) :
    immediate t = .ok n ↔
      (∃ s, digits = '0' :: 'X' :: s) ∧ readIn 16 digits = .ok n ∨
      (∃ s, digits = '0' :: 'B' :: s) ∧ readIn 2 digits = .ok n ∨
      (∀ s, digits ≠ '0' :: 'X' :: s ∧ digits ≠ '0' :: 'B' :: s) ∧ readIn 10 digits = .ok n := by
  simp only [immediate, capitals]
  constructor
  · intro h
    split at h
    next m read =>
      cases h
      split at read
      next s => exact .inl ⟨⟨s, rfl⟩, read⟩
      next s => exact .inr (.inl ⟨⟨s, rfl⟩, read⟩)
      next noX noB => exact .inr (.inr ⟨fun s => ⟨noX s, noB s⟩, read⟩)
    next => cases h
  · rintro (⟨⟨s, rfl⟩, read⟩ | ⟨⟨s, rfl⟩, read⟩ | ⟨none, read⟩)
    · simp [read]
    · simp [read]
    · have noX := fun s eq => (none s).1 eq
      have noB := fun s eq => (none s).2 eq
      simp [read]

theorem immediate_error {t : List Char} {f : Fault} (h : immediate t = .error f) :
    f = .badImmediate (String.ofList t) := by
  simp only [immediate] at h
  split at h
  · cases h
  · exact (Except.error.inj h).symm

/-- A number in decimal does not begin like one behind a tag. -/
theorem Decimal.untagged {n : Int} {base : Nat} {tag : Char} {s : List Char}
    (announced : Tag base tag) : ¬Decimal n ('0' :: tag :: s) := by
  rintro ⟨digits, -⟩
  have digit := digits.isDigitIn tag (by simp)
  cases announced with
  | hexadecimal letter | binary letter =>
    rcases letter with rfl | rfl <;> exact absurd digit (by decide)

/-- A text of ASCII without blanks is a number just if it is a literal. -/
theorem immediate_eq_ok {t : List Char} (h : ∀ c ∈ t, Text.Visible c) {n : Int} :
    immediate t = .ok n ↔ Literal n t := by
  rw [immediate_eq_ok_iff (capitals_eq h)]
  have behind : ∀ {base : Nat} {u : Char} {s : List Char}, Tag base u →
      t.map Char.toUpper = '0' :: u :: s → ∃ tag s, t = '0' :: tag :: s ∧ Tag base tag := by
    intro base u s announced eq
    obtain ⟨z, _, rfl, hz, eq⟩ := List.map_eq_cons_iff.mp eq
    obtain ⟨tag, s, rfl, rfl, -⟩ := List.map_eq_cons_iff.mp eq
    obtain rfl := (capital_eq (h z (by simp))).2.1.mp hz
    exact ⟨tag, s, rfl, announced.of_toUpper (h tag (by simp))⟩
  have hexadecimal : Tag 16 'X' := .hexadecimal (.inr rfl)
  have binary : Tag 2 'B' := .binary (.inr rfl)
  have tagged : ∀ {base : Nat} {u : Char} {s : List Char}, Tag base u →
      t.map Char.toUpper = '0' :: u :: s → readIn base (t.map Char.toUpper) = .ok n →
        Literal n t := by
    intro base u s announced eq read
    obtain ⟨tag, s, rfl, announced⟩ := behind announced eq
    obtain ⟨m, digits, rfl⟩ := (readIn_tagged announced h).mp read
    obtain ⟨joint, digits', rfl, joined, digits⟩ := grouped_afterTag.mp digits
    exact .tagged announced joined digits
  constructor
  · rintro (⟨⟨s, eq⟩, read⟩ | ⟨⟨s, eq⟩, read⟩ | ⟨-, read⟩)
    · exact tagged hexadecimal eq read
    · exact tagged binary eq read
    · exact .decimal ((readIn_ten h).mp read)
  · intro written
    cases written with
    | tagged announced joined digits =>
      have read := (readIn_tagged announced h).mpr
        ⟨_, grouped_afterTag.mpr ⟨_, _, rfl, joined, digits⟩, rfl⟩
      cases announced with
      | hexadecimal letter => exact .inl ⟨⟨_, by rcases letter with rfl | rfl <;> rfl⟩, read⟩
      | binary letter =>
        exact .inr (.inl ⟨⟨_, by rcases letter with rfl | rfl <;> rfl⟩, read⟩)
    | decimal written =>
      refine .inr (.inr ⟨fun s => ⟨fun eq => ?_, fun eq => ?_⟩, (readIn_ten h).mpr written⟩)
      · obtain ⟨tag, s, rfl, announced⟩ := behind hexadecimal eq
        exact Decimal.untagged announced written
      · obtain ⟨tag, s, rfl, announced⟩ := behind binary eq
        exact Decimal.untagged announced written

/-- A number less than zero is in decimal, and therefore has no more digits than can be written. -/
theorem natAbs_lt_of_immediate {t : List Char} {n : Int} (h : immediate t = .ok n) (hn : n < 0) :
    n.natAbs < decimalBound := by
  have nonneg : ∀ {base : Nat} {s : List Char}, readIn base ('0' :: s) = .ok n → False := by
    intro base s read
    obtain ⟨rest, eq⟩ := Text.trimBy_cons (p := Text.isNumberBlank) (c := '0') rfl s
    have noSign : ∀ c ∈ (plainLiteral ('0' :: s)).head?, c ≠ '-' ∧ c ≠ '+' := by
      rw [plainLiteral, eq]
      rintro c ⟨⟩
      decide
    obtain ⟨m, -, rfl⟩ := (readSigned_unsigned noSign).mp read
    omega
  have decimal : ∀ {s : List Char}, readIn 10 s = .ok n → n.natAbs < decimalBound := by
    intro s read
    obtain ⟨m, value, rfl⟩ := readSigned_eq_ok.mp read
    rw [readUnsignedIn_ten, readDigits_eq_ok] at value
    obtain ⟨digits, short⟩ := value
    rw [natAbs_signOf]
    have bound : ∀ k, figures (magnitude (plainLiteral s)) ≤ k → m < Nat.pow 10 k :=
      fun k hk => digits.lt.trans_le (Nat.pow_le_pow_right (by decide) hk)
    unfold decimalBound
    exact bound _ (short rfl)
  rcases (immediate_eq_ok_iff rfl).mp h with ⟨⟨s, eq⟩, read⟩ | ⟨⟨s, eq⟩, read⟩ | ⟨-, read⟩
  · exact (nonneg (eq ▸ read)).elim
  · exact (nonneg (eq ▸ read)).elim
  · exact decimal read

end Assembler

end Accumulator
