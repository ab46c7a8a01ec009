import Accumulator.Assembler
import Mathlib

/-! Written numbers. A numeral is the decimal digits of a number behind any zeros, or its
hexadecimal or binary digits behind a tag, with letters of either case. The assembler reads a
numeral as the number that it is of. -/

namespace Accumulator

namespace Text

theorem of_ascii (P : Char → Prop) (all : ∀ n < 128, P (Char.ofNat n)) {c : Char}
    (h : c.toNat < 128) : P c := by
  have := all c.toNat h
  rwa [Char.ofNat_toNat] at this

theorem ascii_of_isAlphanum {c : Char} (h : c.isAlphanum = true) : c.toNat < 128 := by
  simp [Char.isAlphanum, Char.isAlpha, Char.isUpper, Char.isLower, Char.isDigit,
    UInt32.le_iff_toNat_le] at h
  omega

/-- A character that belongs to a name or a number and not to the layout around it. -/
structure Plain (c : Char) : Prop where
  alphanum : c.isAlphanum = true
  wordChar : isWordChar c = true
  notBlank : isBlank c = false
  notSeparator : Assembler.isSeparator c = false
  notMark : (c != ';' && c != '#') = true
  notParenthesis : c ≠ '(' ∧ c ≠ ')'
  notNewline : c ≠ '\n'
  notSign : c ≠ '-' ∧ c ≠ '+'
  capital : Assembler.capital c = [c.toUpper]
  plainDigit : Text.plainDigit c = c

theorem Plain.of_isAlphanum {c : Char} (h : c.isAlphanum = true) : Plain c := by
  have all := of_ascii (fun c => c.isAlphanum = true →
    (isWordChar c = true ∧ isBlank c = false ∧ Assembler.isSeparator c = false ∧
      (c != ';' && c != '#') = true) ∧ ((c ≠ '(' ∧ c ≠ ')') ∧ c ≠ '\n' ∧ (c ≠ '-' ∧ c ≠ '+')) ∧
      Assembler.capital c = [c.toUpper] ∧ Text.plainDigit c = c)
    (by decide) (ascii_of_isAlphanum h) h
  obtain ⟨⟨h1, h2, h3, h4⟩, ⟨h5, h6, h7⟩, h8, h9⟩ := all
  exact ⟨h, h1, h2, h3, h4, h5, h6, h7, h8, h9⟩

theorem Plain.toUpper {c : Char} (h : Plain c) : Plain c.toUpper :=
  .of_isAlphanum <| of_ascii (fun c => c.isAlphanum = true → c.toUpper.isAlphanum = true)
    (by decide) (ascii_of_isAlphanum h.alphanum) h.alphanum

/-- A character of ASCII that is no blank. -/
structure Visible (c : Char) : Prop where
  ascii : c.toNat < 128
  notBlank : isBlank c = false

instance : DecidablePred Visible := fun c =>
  decidable_of_iff (c.toNat < 128 ∧ isBlank c = false)
    ⟨fun h => ⟨h.1, h.2⟩, fun h => ⟨h.ascii, h.notBlank⟩⟩

theorem Plain.visible {c : Char} (h : Plain c) : Visible c :=
  ⟨ascii_of_isAlphanum h.alphanum, h.notBlank⟩

namespace Visible

variable {c : Char}

theorem toUpper (h : Visible c) : Visible c.toUpper := by
  obtain ⟨ascii, blank⟩ := of_ascii (fun c => isBlank c = false →
    c.toUpper.toNat < 128 ∧ isBlank c.toUpper = false) (by decide) h.ascii h.notBlank
  exact ⟨ascii, blank⟩

theorem capital (h : Visible c) : Assembler.capital c = [c.toUpper] := by
  have : c.toNat ≠ 0xFB00 := by
    have := h.ascii
    omega
  exact if_neg this

theorem plainDigit (h : Visible c) : Text.plainDigit c = c := if_pos h.ascii

end Visible

/-- Trimming takes off what belongs to the class, up to a text with neither end in it. -/
theorem trimBy_between {p : Char → Bool} {before s after : List Char}
    (hb : ∀ c ∈ before, p c = true) (ha : ∀ c ∈ after, p c = true)
    (first : ∀ c ∈ s.head?, p c = false) (last : ∀ c ∈ s.getLast?, p c = false) :
    trimBy p (before ++ s ++ after) = s := by
  have stop : ∀ t rest : List Char, (∀ c ∈ t.head?, p c = false) → t ≠ [] →
      (t ++ rest).dropWhile p = t ++ rest := by
    intro t rest ht hne
    cases t with
    | nil => contradiction
    | cons c t => simp [ht c rfl]
  unfold trimBy
  rw [List.append_assoc, List.dropWhile_append_of_pos hb]
  by_cases hs : s = []
  · subst hs
    have : after.dropWhile p = [] := by simpa [List.dropWhile_eq_nil_iff] using ha
    simp [this]
  · rw [stop s _ first hs, List.reverse_append, List.dropWhile_append_of_pos (by simpa using ha)]
    have := stop s.reverse [] (by simpa using last) (by simpa using hs)
    rw [List.append_nil] at this
    rw [this, List.reverse_reverse]

theorem trimBy_eq_self {p : Char → Bool} {s : List Char} (h : ∀ c ∈ s, p c = false) :
    trimBy p s = s := by
  have : trimBy p ([] ++ s ++ []) = s := trimBy_between (by simp) (by simp)
    (fun c hc => h c (List.mem_of_mem_head? hc)) (fun c hc => h c (List.mem_of_mem_getLast? hc))
  simpa using this

end Text

namespace Number

/-- The digits of a number in a base behind any zeros, with letters of either case. -/
def Digits (base n : Nat) (s : List Char) : Prop :=
  ∃ zeros digits, s = List.replicate zeros '0' ++ digits ∧
    digits.map Char.toLower = Nat.toDigits base n

/-- The ways to write a number: in decimal, in hexadecimal and in binary. -/
inductive Numeral (n : Nat) : List Char → Prop
  | decimal {s : List Char} (digits : Digits 10 n s) (short : s.length ≤ maxDecimalDigits) :
      Numeral n s
  | hexadecimal {tag : Char} {s : List Char} (announced : tag = 'x' ∨ tag = 'X')
      (digits : Digits 16 n s) : Numeral n ('0' :: tag :: s)
  | binary {tag : Char} {s : List Char} (announced : tag = 'b' ∨ tag = 'B')
      (digits : Digits 2 n s) : Numeral n ('0' :: tag :: s)

theorem isAlphanum_digitChar : ∀ d < 16, (Nat.digitChar d).isAlphanum = true := by decide

theorem digitValue_digitChar : ∀ d < 16, digitValue (Nat.digitChar d) = some d := by decide

theorem isAlphanum_of_toLower {c : Char} (h : c.toLower.isAlphanum = true) :
    c.isAlphanum = true := by
  by_cases hc : c.isUpper = true
  · simp [Char.isAlphanum, Char.isAlpha, hc]
  · rwa [Char.toLower_eq_of_not_isUpper hc] at h

/-- A digit stands for the same number in either case. -/
theorem digitValue_toUpper {c : Char} (h : c.isAlphanum = true) :
    digitValue c.toUpper = digitValue c.toLower :=
  Text.of_ascii (fun c => digitValue c.toUpper = digitValue c.toLower) (by decide)
    (Text.ascii_of_isAlphanum h)

theorem mem_toDigits {base n : Nat} (hb : 1 < base) {c : Char} (h : c ∈ Nat.toDigits base n) :
    ∃ d < base, c = Nat.digitChar d := by
  induction n using Nat.strong_induction_on with
  | _ n ih =>
    rw [Nat.toDigits_eq_if hb] at h
    split at h
    · exact ⟨n, ‹_›, by simpa using h⟩
    · rcases List.mem_append.mp h with h | h
      · exact ih (n / base) (Nat.div_lt_self (by omega) hb) h
      · exact ⟨n % base, Nat.mod_lt _ (by omega), by simpa using h⟩

theorem ofDigits_append (base : Nat) (s : List Char) (c : Char) :
    ofDigits base (s ++ [c]) = ofDigits base s * base + (digitValue c).getD 0 := by
  simp [ofDigits]

theorem ofDigits_toDigits {base : Nat} (h1 : 1 < base) (h2 : base ≤ 16) (n : Nat) :
    ofDigits base (Nat.toDigits base n) = n := by
  induction n using Nat.strong_induction_on with
  | _ n ih =>
    rw [Nat.toDigits_eq_if h1]
    split
    · simp [ofDigits, digitValue_digitChar n (by omega)]
    · have hlt : n % base < base := Nat.mod_lt _ (by omega)
      rw [ofDigits_append, ih (n / base) (Nat.div_lt_self (by omega) h1),
        digitValue_digitChar _ (by omega)]
      exact Nat.div_add_mod' n base

theorem ofDigits_zeros (base zeros : Nat) (s : List Char) :
    ofDigits base (List.replicate zeros '0' ++ s) = ofDigits base s := by
  induction zeros with
  | zero => rfl
  | succ zeros ih =>
    rw [← ih]
    simp [ofDigits, List.replicate_succ, show digitValue '0' = some 0 from rfl]

theorem ofDigits_congr {base : Nat} {s t : List Char} (h : s.map digitValue = t.map digitValue) :
    ofDigits base s = ofDigits base t := by
  have fold : ∀ s, ofDigits base s =
      (s.map digitValue).foldl (fun n d => n * base + d.getD 0) 0 := by
    simp [ofDigits, List.foldl_map]
  rw [fold, fold, h]

namespace Digits

variable {base n : Nat} {s : List Char}

theorem ne_nil (h : Digits base n s) : s ≠ [] := by
  obtain ⟨zeros, digits, rfl, spelled⟩ := h
  rintro empty
  obtain ⟨-, rfl⟩ := List.append_eq_nil_iff.mp empty
  exact Nat.toDigits_ne_nil spelled.symm

theorem value_lt (h : Digits base n s) (h1 : 1 < base) (h2 : base ≤ 16) {c : Char} (hc : c ∈ s) :
    c.isAlphanum = true ∧ ∃ d < base, digitValue c.toLower = some d := by
  obtain ⟨zeros, digits, rfl, spelled⟩ := h
  rcases List.mem_append.mp hc with hc | hc
  · obtain rfl := List.eq_of_mem_replicate hc
    exact ⟨by decide, 0, by omega, by decide⟩
  · have := List.mem_map_of_mem (f := Char.toLower) hc
    rw [spelled] at this
    obtain ⟨d, hd, eq⟩ := mem_toDigits h1 this
    refine ⟨isAlphanum_of_toLower ?_, d, hd, ?_⟩
    · rw [eq]
      exact isAlphanum_digitChar d (by omega)
    · rw [eq]
      exact digitValue_digitChar d (by omega)

theorem plain (h : Digits base n s) (h1 : 1 < base) (h2 : base ≤ 16) : ∀ c ∈ s, Text.Plain c :=
  fun _ hc => .of_isAlphanum (h.value_lt h1 h2 hc).1

theorem isDigitIn_toUpper (h : Digits base n s) (h1 : 1 < base) (h2 : base ≤ 16) :
    ∀ c ∈ s.map Char.toUpper, isDigitIn base c = true := by
  intro c hc
  obtain ⟨a, ha, rfl⟩ := List.mem_map.mp hc
  obtain ⟨alphanum, d, hd, value⟩ := h.value_lt h1 h2 ha
  simp [isDigitIn, digitValue_toUpper alphanum, value, hd]

theorem ofDigits_toUpper (h : Digits base n s) (h1 : 1 < base) (h2 : base ≤ 16) :
    ofDigits base (s.map Char.toUpper) = n := by
  have alphanum := fun c hc => (h.value_lt (c := c) h1 h2 hc).1
  obtain ⟨zeros, digits, rfl, spelled⟩ := h
  calc ofDigits base ((List.replicate zeros '0' ++ digits).map Char.toUpper)
      = ofDigits base ((List.replicate zeros '0' ++ digits).map Char.toLower) := by
        refine ofDigits_congr ?_
        simp only [List.map_map]
        exact List.map_congr_left fun c hc => digitValue_toUpper (alphanum c hc)
    _ = ofDigits base (List.replicate zeros '0' ++ Nat.toDigits base n) := by
        simp [spelled, show Char.toLower '0' = '0' from rfl]
    _ = n := by rw [ofDigits_zeros, ofDigits_toDigits h1 h2]

end Digits

theorem wellGrouped_of_no_underscore {s : List Char} (hs : s ≠ []) (h : ∀ c ∈ s, c ≠ '_') :
    wellGrouped s = true := by
  induction s with
  | nil => contradiction
  | cons c s ih =>
    cases s with
    | nil => simpa [wellGrouped] using h
    | cons d s =>
      have hd : d ≠ '_' := h d (by simp)
      have rest := ih (by simp) fun c hc => h c (by simp [hc])
      simp [wellGrouped, h c (by simp), hd, rest]

theorem readDigits_of_digits {base : Nat} {s : List Char} (hs : s ≠ [])
    (digits : ∀ c ∈ s, isDigitIn base c = true)
    (short : base = 10 → s.length ≤ maxDecimalDigits) :
    readDigits base s = .ok (ofDigits base s) := by
  have noUnderscore : ∀ c ∈ s, c ≠ '_' := by
    rintro c hc rfl
    simpa [isDigitIn, digitValue] using digits _ hc
  have run : (s.takeWhile fun c => isDigitIn base c || c == '_') = s :=
    List.takeWhile_eq_self_iff.mpr fun c hc => by simp [digits c hc]
  have kept : s.filter (· != '_') = s := List.filter_eq_self.mpr (by simpa using noUnderscore)
  have few : ¬(base = 10 ∧ maxDecimalDigits < s.length) := fun h => by
    have := short h.1
    omega
  simp [readDigits, run, kept, wellGrouped_of_no_underscore hs noUnderscore, few]

/-- In ASCII without blanks, a literal is plain as it stands. -/
theorem plainLiteral_visible {s : List Char} (h : ∀ c ∈ s, Text.Visible c) :
    plainLiteral s = s := by
  have trimmed : Text.trimBy Text.isNumberBlank s = s :=
    Text.trimBy_eq_self fun c hc => by simp [Text.isNumberBlank, (h c hc).notBlank]
  rw [plainLiteral, trimmed]
  exact (List.map_congr_left fun c hc => (h c hc).plainDigit).trans (List.map_id' _)

/-- A literal of letters and digits alone has no sign and no blanks. -/
theorem readIn_plain {s : List Char} (base : Nat) (h : ∀ c ∈ s, Text.Plain c) :
    readIn base s = (readUnsignedIn base s).map fun n => (n : Int) := by
  rw [readIn, plainLiteral_visible fun c hc => (h c hc).visible]
  cases s with
  | nil => rfl
  | cons c s =>
    have sign := (h c (by simp)).notSign
    simp [readSigned, sign.1, sign.2]

/-- Digits of ten have no tag, so that a zero in front is a digit like any other. -/
theorem readUnsignedIn_ten {s : List Char} : readUnsignedIn 10 s = readDigits 10 s := by
  unfold readUnsignedIn
  split
  · rename_i tag rest
    have : tagBase tag ≠ some 10 := by
      unfold tagBase
      grind
    rw [if_neg this]
  · rfl

end Number

namespace Assembler

open Number

theorem capitals_eq {s : List Char} (h : ∀ c ∈ s, Text.Visible c) :
    (Text.trim s).flatMap capital = s.map Char.toUpper := by
  have trimmed : Text.trim s = s := Text.trimBy_eq_self fun c hc => (h c hc).notBlank
  rw [trimmed]
  clear trimmed
  induction s with
  | nil => rfl
  | cons c s ih => simp [(h c (by simp)).capital, ih fun c hc => h c (by simp [hc])]

end Assembler

namespace Number.Digits

open Assembler

variable {n : Nat} {s : List Char}

theorem read {base : Nat} (h : Digits base n s) (h1 : 1 < base) (h2 : base ≤ 16)
    (short : base = 10 → s.length ≤ maxDecimalDigits) :
    readDigits base (s.map Char.toUpper) = .ok n := by
  rw [readDigits_of_digits (by simpa using h.ne_nil) (h.isDigitIn_toUpper h1 h2) (by simpa),
    h.ofDigits_toUpper h1 h2]

/-- Behind its tag a number is read in its base. -/
theorem read_tagged {base : Nat} (tag : Char) (h : Digits base n s) (h1 : 1 < base)
    (h2 : base ≤ 16) (ten : base ≠ 10) (ht : tag.isAlphanum = true)
    (announced : tagBase tag = some base) :
    readIn base ('0' :: tag :: s.map Char.toUpper) = .ok n := by
  have upper : ∀ c ∈ '0' :: tag :: s.map Char.toUpper, Text.Plain c := by
    intro c hc
    rcases List.mem_cons.mp hc with rfl | hc
    · exact .of_isAlphanum (by decide)
    rcases List.mem_cons.mp hc with rfl | hc
    · exact .of_isAlphanum ht
    obtain ⟨a, ha, rfl⟩ := List.mem_map.mp hc
    exact (h.plain h1 h2 a ha).toUpper
  have untouched : afterTag (s.map Char.toUpper) = s.map Char.toUpper := by
    unfold afterTag
    split
    · rename_i rest eq
      have := upper '_' (by rw [eq]; simp)
      exact absurd this.alphanum (by decide)
    · rfl
  rw [readIn_plain base upper, readUnsignedIn, if_pos announced, untouched,
    h.read h1 h2 fun eq => absurd eq ten]
  rfl

end Number.Digits

namespace Number.Numeral

open Assembler

variable {n : Nat} {s : List Char}

theorem plain (h : Numeral n s) : ∀ c ∈ s, Text.Plain c := by
  have tagged : ∀ {base : Nat} {tag : Char} {t : List Char}, 1 < base → base ≤ 16 →
      tag.isAlphanum = true → Digits base n t → ∀ c ∈ '0' :: tag :: t, Text.Plain c := by
    rintro base tag t h1 h2 ht digits c (_ | ⟨_, _ | ⟨_, hc⟩⟩)
    · exact .of_isAlphanum (by decide)
    · exact .of_isAlphanum ht
    · exact digits.plain h1 h2 c hc
  cases h with
  | decimal digits _ => exact digits.plain (by decide) (by decide)
  | hexadecimal announced digits =>
    exact tagged (by decide) (by decide) (by rcases announced with rfl | rfl <;> decide) digits
  | binary announced digits =>
    exact tagged (by decide) (by decide) (by rcases announced with rfl | rfl <;> decide) digits

theorem ne_nil (h : Numeral n s) : s ≠ [] := by
  cases h with
  | decimal digits _ => exact digits.ne_nil
  | hexadecimal _ _ | binary _ _ => simp

theorem immediate_eq (h : Numeral n s) : immediate s = .ok n := by
  have capitals := capitals_eq fun c hc => (h.plain c hc).visible
  cases h with
  | decimal digits short =>
    have isDigit := digits.isDigitIn_toUpper (by decide) (by decide)
    have value := digits.read (by decide) (by decide) fun _ => short
    have plain : ∀ c ∈ s.map Char.toUpper, Text.Plain c := by
      simpa using fun c hc => (digits.plain (by decide) (by decide) c hc).toUpper
    simp only [immediate, capitals]
    generalize s.map Char.toUpper = upper at isDigit value plain
    have ten : readIn 10 upper = .ok n := by
      rw [readIn_plain 10 plain, readUnsignedIn_ten, value]
      rfl
    -- the letter of a tag is no decimal digit
    have noX : ∀ rest, upper = '0' :: 'X' :: rest → False := by
      rintro rest rfl
      exact absurd (isDigit 'X' (by simp)) (by decide)
    have noB : ∀ rest, upper = '0' :: 'B' :: rest → False := by
      rintro rest rfl
      exact absurd (isDigit 'B' (by simp)) (by decide)
    simp [ten]
  | @hexadecimal tag _ announced digits =>
    have ht : tag.toUpper = 'X' := by rcases announced with rfl | rfl <;> rfl
    have read := digits.read_tagged 'X' (by decide) (by decide) (by decide) rfl rfl
    simp [immediate, capitals, ht, show Char.toUpper '0' = '0' from rfl, read]
  | @binary tag _ announced digits =>
    have ht : tag.toUpper = 'B' := by rcases announced with rfl | rfl <;> rfl
    have read := digits.read_tagged 'B' (by decide) (by decide) (by decide) rfl rfl
    simp [immediate, capitals, ht, show Char.toUpper '0' = '0' from rfl, read]

theorem length_toDigits_ten {n k : Nat} (hk : 0 < k) (h : n < Nat.pow 10 k) :
    (Nat.toDigits 10 n).length ≤ k :=
  (Nat.length_toDigits_le_iff (by decide) hk).mpr h

/-- What is printed of a number is a numeral of it. -/
theorem of_toString {n : Nat} (h : n < decimalBound) : Numeral n (toString n).toList := by
  rw [show (toString n).toList = Nat.toDigits 10 n from Nat.toList_repr]
  refine .decimal ⟨0, _, rfl, ?_⟩ ?_
  · refine (List.map_congr_left fun c hc => ?_).trans (List.map_id' _)
    have digit := Nat.isDigit_of_mem_toDigits (by decide) (by decide) hc
    exact Char.toLower_eq_of_not_isUpper fun upper => by
      have := Text.of_ascii (fun c => c.isDigit = true → c.isUpper = false) (by decide)
        (Text.ascii_of_isAlphanum (by simp [Char.isAlphanum, digit])) digit
      simp [this] at upper
  · unfold decimalBound at h
    exact length_toDigits_ten (by decide) h

end Number.Numeral

end Accumulator
