import Accumulator.Assignment
import Accumulator.Proofs.Grammar

/-! Lists of assignments. The command line takes its assignments one by one, and the workbench reads
a list of them from one text, by other means. In the same texts both read the same assignments, in
whatever way the texts are joined; and what is printed of assignments is read as them. -/

namespace Accumulator

namespace Text

variable {p : Char → Bool} {s before after : List Char}

/-- What belongs to the class at either end makes no difference. -/
theorem trimBy_padded (hb : ∀ c ∈ before, p c = true) (ha : ∀ c ∈ after, p c = true) :
    trimBy p (before ++ s ++ after) = trimBy p s := by
  obtain ⟨b, a, eq, hb', ha', first, last⟩ := trimBy_spec p s
  have padded : before ++ s ++ after = (before ++ b) ++ trimBy p s ++ (a ++ after) := by
    nth_rewrite 1 [eq]
    simp
  rw [padded, trimBy_between (List.forall_mem_append.mpr ⟨hb, hb'⟩)
    (List.forall_mem_append.mpr ⟨ha', ha⟩) first last]

theorem trimBy_trimBy : trimBy p (trimBy p s) = trimBy p s := by
  obtain ⟨b, a, eq, hb, ha, -, -⟩ := trimBy_spec p s
  nth_rewrite 2 [eq]
  exact (trimBy_padded hb ha).symm

theorem trimBy_subset (p : Char → Bool) (s : List Char) : trimBy p s ⊆ s := by
  obtain ⟨b, a, eq, -⟩ := trimBy_spec p s
  nth_rewrite 2 [eq]
  simp

/-- Classes that agree on the text trim it alike. -/
theorem trimBy_congr {q : Char → Bool} (h : ∀ c ∈ s, p c = q c) : trimBy p s = trimBy q s := by
  obtain ⟨b, a, eq, hb, ha, first, last⟩ := trimBy_spec q s
  have part {t : List Char} (sub : t ⊆ s) {v : Bool} (ht : ∀ c ∈ t, q c = v) :
      ∀ c ∈ t, p c = v := fun c hc => (h c (sub hc)).trans (ht c hc)
  have before : b ⊆ s := by rw [eq]; simp
  have after : a ⊆ s := by rw [eq]; simp
  have within := trimBy_subset q s
  nth_rewrite 1 [eq]
  refine trimBy_between (part before hb) (part after ha) (fun c hc => ?_) fun c hc => ?_
  · exact (h c (within (List.mem_of_mem_head? hc))).trans (first c hc)
  · exact (h c (within (List.mem_of_mem_getLast? hc))).trans (last c hc)

end Text

namespace Assignment

/-- The text between separators states an assignment: there is something visible in it, it is of
ASCII, and its blanks are spaces and tabs. -/
structure IsItem (t : List Char) : Prop where
  separate : ∀ c ∈ t, c ≠ ',' ∧ c ≠ '\n'
  ascii : ∀ c ∈ t, c.toNat < 128
  blanks : ∀ c ∈ t, Text.isBlank c = true → c = ' ' ∨ c = '\t'
  visible : ∃ c ∈ t, Text.isBlank c = false

/-- Texts are joined by commas and newlines, in any mix, and with blank items in between. -/
inductive Joined : List (List Char) → List Char → Prop
  | nothing {blank : List Char} : (∀ c ∈ blank, Text.isBlank c = true ∧ c ≠ '\n') →
      Joined [] blank
  | last (t : List Char) : Joined [t] t
  | skip {blank : List Char} {separator : Char} {texts : List (List Char)} {s : List Char} :
      (∀ c ∈ blank, Text.isBlank c = true ∧ c ≠ '\n') → separator = ',' ∨ separator = '\n' →
      Joined texts s → Joined texts (blank ++ separator :: s)
  | next (t : List Char) {separator : Char} {texts : List (List Char)} {s : List Char} :
      separator = ',' ∨ separator = '\n' → Joined texts s →
      Joined (t :: texts) (t ++ separator :: s)

/-- The integers have no more digits than can be read and written. -/
def IsShort (a : Assignment) : Prop :=
  a.address.natAbs < Number.decimalBound ∧ a.value.natAbs < Number.decimalBound

instance : DecidablePred IsShort := fun _ => inferInstanceAs (Decidable (_ ∧ _))

/-- The assignment as it is printed: the address, an equals sign, and the value. -/
def printed (a : Assignment) : List Char :=
  (toString a.address).toList ++ '=' :: (toString a.value).toList

variable {s t x y : List Char} {texts : List (List Char)}

/-! ### Items -/

theorem items_free (h : ∀ c ∈ t, c ≠ ',' ∧ c ≠ '\n') : items t = [t] := by
  induction t with
  | nil => rfl
  | cons c t ih =>
    obtain ⟨first, rest⟩ := List.forall_mem_cons.mp h
    rw [items, if_neg (by simpa using first), ih rest]

theorem items_append (h : ∀ c ∈ t, c ≠ ',' ∧ c ≠ '\n') {separator : Char}
    (hs : separator = ',' ∨ separator = '\n') (s : List Char) :
    items (t ++ separator :: s) = t :: items s := by
  induction t with
  | nil => rw [List.nil_append, items, if_pos hs]
  | cons c t ih =>
    obtain ⟨first, rest⟩ := List.forall_mem_cons.mp h
    rw [List.cons_append, items, if_neg (by simpa using first), ih rest]

/-- The items of a list that are not blank are the texts, without the blanks around them. -/
theorem Joined.items (h : Joined texts s) (hitems : ∀ t ∈ texts, IsItem t) :
    ((Assignment.items s).map Text.trim).filter (!·.isEmpty) = texts.map Text.trim := by
  have free {blank : List Char} (hb : ∀ c ∈ blank, Text.isBlank c = true ∧ c ≠ '\n') :
      ∀ c ∈ blank, c ≠ ',' ∧ c ≠ '\n' := fun c hc => by
    refine ⟨?_, (hb c hc).2⟩
    rintro rfl
    exact absurd (hb _ hc).1 (by decide)
  have gone {blank : List Char} (hb : ∀ c ∈ blank, Text.isBlank c = true ∧ c ≠ '\n') :
      Text.trim blank = [] := Text.trimBy_eq_nil_iff.mpr fun c hc => (hb c hc).1
  have kept {t : List Char} (ht : IsItem t) : (!(Text.trim t).isEmpty) = true := by
    obtain ⟨c, hc, visible⟩ := ht.visible
    rw [Bool.not_eq_true', List.isEmpty_eq_false_iff]
    exact fun none => absurd (Text.trimBy_eq_nil_iff.mp none c hc) (by simp [visible])
  induction h with
  | nothing hb => simp [items_free (free hb), gone hb]
  | last t =>
    have ht := hitems t List.mem_cons_self
    simp [items_free ht.separate, kept ht]
  | skip hb hs _ ih =>
    rw [items_append (free hb) hs, List.map_cons, gone hb]
    exact ih hitems
  | next t hs _ ih =>
    obtain ⟨ht, rest⟩ := List.forall_mem_cons.mp hitems
    rw [items_append ht.separate hs, List.map_cons, List.filter_cons, if_pos (kept ht), ih rest,
      List.map_cons]

/-! ### Reading an item -/

theorem splitAtEquals?_eq_some (h : '=' ∉ x) : splitAtEquals? (x ++ '=' :: y) = some (x, y) := by
  have stop : ∀ c ∈ x, (c != '=') = true := fun c hc => by
    rw [bne_iff_ne]
    rintro rfl
    exact h hc
  rw [splitAtEquals?, List.dropWhile_append_of_pos stop, List.takeWhile_append_of_pos stop]
  simp

theorem splitAtEquals?_eq_none (h : '=' ∉ t) : splitAtEquals? t = none := by
  have all : ∀ c ∈ t, (c != '=') = true := fun c hc => by
    rw [bne_iff_ne]
    rintro rfl
    exact h hc
  rw [splitAtEquals?, List.dropWhile_eq_nil_iff.mpr all]

theorem integer_iff_readTagged {k : Int} : integer s = .ok k ↔ Number.readTagged s = .ok k := by
  rw [integer]
  cases Number.readTagged s with
  | ok n => simp
  | error e => cases e <;> simp

/-- A literal is read the same with the blanks around it and without them. -/
theorem integer_trim (h : ∀ c ∈ s, Text.isBlank c = true → c = ' ' ∨ c = '\t') {k : Int} :
    integer (Text.trim s) = .ok k ↔ integer s = .ok k := by
  have blank : ∀ c ∈ s, Text.isNumberBlank c = Text.isBlank c := by
    intro c hc
    cases hblank : Text.isBlank c with
    | false => simp [Text.isNumberBlank, hblank]
    | true => rcases h c hc hblank with rfl | rfl <;> rfl
  have within : Text.trim s ⊆ s := Text.trimBy_subset Text.isBlank s
  have plain : Number.plainLiteral (Text.trim s) = Number.plainLiteral s := by
    rw [Number.plainLiteral, Number.plainLiteral, Text.trimBy_congr blank,
      Text.trimBy_congr fun c hc => blank c (within hc)]
    exact congrArg _ Text.trimBy_trimBy
  rw [integer_iff_readTagged, integer_iff_readTagged, Number.readTagged, plain, Number.readTagged]

theorem read_eq_ok (h : '=' ∉ x) {a : Assignment} : read (x ++ '=' :: y) = .ok a ↔
    integer x = .ok a.address ∧ integer y = .ok a.value := by
  rw [read, splitAtEquals?_eq_some h]
  simp only
  cases integer x with
  | error f => exact ⟨nofun, nofun⟩
  | ok address =>
    cases integer y with
    | error f => exact ⟨nofun, nofun⟩
    | ok value =>
      obtain ⟨address', value'⟩ := a
      simp

theorem readItem_eq_ok (h : '=' ∉ x) {a : Assignment} : readItem (x ++ '=' :: y) = .ok a ↔
    integer (Text.trim x) = .ok a.address ∧ integer (Text.trim y) = .ok a.value := by
  rw [readItem, splitAtEquals?_eq_some h]
  simp only
  cases integer (Text.trim x) with
  | error f => exact ⟨nofun, nofun⟩
  | ok address =>
    cases integer (Text.trim y) with
    | error f => exact ⟨nofun, nofun⟩
    | ok value =>
      obtain ⟨address', value'⟩ := a
      simp [bind, Except.bind, pure, Except.pure]

/-- The blanks at the ends of a text with an equals sign are those at the far ends of its sides. -/
theorem trim_sides (x y : List Char) : ∃ before x' y' after, x = before ++ x' ∧ y = y' ++ after ∧
    (∀ c ∈ before, Text.isBlank c = true) ∧ (∀ c ∈ after, Text.isBlank c = true) ∧
    Text.trim (x ++ '=' :: y) = x' ++ '=' :: y' := by
  refine ⟨x.takeWhile Text.isBlank, x.dropWhile Text.isBlank, y.rdropWhile Text.isBlank,
    y.rtakeWhile Text.isBlank, List.takeWhile_append_dropWhile.symm,
    List.rdropWhile_append_rtakeWhile.symm, fun c => List.mem_takeWhile_imp,
    fun c => List.mem_rtakeWhile_imp, ?_⟩
  have left : x.takeWhile Text.isBlank ++ x.dropWhile Text.isBlank = x :=
    List.takeWhile_append_dropWhile
  have right : y.rdropWhile Text.isBlank ++ y.rtakeWhile Text.isBlank = y :=
    List.rdropWhile_append_rtakeWhile
  have parts : x ++ '=' :: y = x.takeWhile Text.isBlank ++
      (x.dropWhile Text.isBlank ++ '=' :: y.rdropWhile Text.isBlank) ++
        y.rtakeWhile Text.isBlank := by
    nth_rewrite 1 [← left, ← right]
    simp only [List.append_assoc, List.cons_append]
  rw [parts]
  refine Text.trimBy_between (fun c => List.mem_takeWhile_imp) (fun c => List.mem_rtakeWhile_imp)
    (fun c hc => ?_) fun c hc => ?_
  · cases rest : x.dropWhile Text.isBlank with
    | nil =>
      rw [rest] at hc
      obtain rfl : '=' = c := by simpa using hc
      decide
    | cons first rest' =>
      have stop := List.head?_dropWhile_not Text.isBlank x
      rw [rest] at hc stop
      obtain rfl : first = c := by simpa using hc
      exact stop
  · by_cases none : y.rdropWhile Text.isBlank = []
    · rw [none] at hc
      obtain rfl : '=' = c := by simpa using hc
      decide
    · rw [List.getLast?_append_cons, List.getLast?_cons_of_ne_nil none] at hc
      obtain ⟨ne, rfl⟩ := List.mem_getLast?_eq_getLast hc
      exact Bool.eq_false_of_not_eq_true (List.rdropWhile_last_not _ _ ne)

/-- An item of a list is read as the text that it is. -/
theorem readItem_trim (h : IsItem t) {a : Assignment} :
    readItem (Text.trim t) = .ok a ↔ read t = .ok a := by
  by_cases equals : '=' ∈ t
  · obtain ⟨x, y, rfl, hx⟩ := List.eq_append_cons_of_mem equals
    have blanks := h.blanks
    rw [List.forall_mem_append, List.forall_mem_cons] at blanks
    obtain ⟨before, x', y', after, ex, ey, hb, ha, trimmed⟩ := trim_sides x y
    have left : Text.trim x' = Text.trim x := by
      rw [ex, ← List.append_nil (before ++ x')]
      exact (Text.trimBy_padded hb (by simp)).symm
    have right : Text.trim y' = Text.trim y := by
      rw [ey, ← List.nil_append (y' ++ after), ← List.append_assoc]
      exact (Text.trimBy_padded (by simp) ha).symm
    have hx' : '=' ∉ x' := fun h => hx (by rw [ex]; exact List.mem_append_right _ h)
    rw [trimmed, readItem_eq_ok hx', read_eq_ok hx, left, right, integer_trim blanks.1,
      integer_trim blanks.2.2]
  · have within : Text.trim t ⊆ t := Text.trimBy_subset Text.isBlank t
    rw [readItem, read, splitAtEquals?_eq_none equals,
      splitAtEquals?_eq_none fun h => equals (within h)]
    exact ⟨nofun, nofun⟩

/-- A list is read just if each of its texts is, and as the assignments that they are. -/
theorem readList_iff (hitems : ∀ t ∈ texts, IsItem t) (h : Joined texts s) {as : List Assignment} :
    readList s = .ok as ↔ List.Forall₂ (fun t a => read t = .ok a) texts as := by
  rw [readList, h.items hitems, mapM_eq_ok, List.forall₂_map_left_iff]
  clear h
  induction texts generalizing as with
  | nil => rw [List.forall₂_nil_left_iff, List.forall₂_nil_left_iff]
  | cons t texts ih =>
    obtain ⟨ht, rest⟩ := List.forall_mem_cons.mp hitems
    rw [List.forall₂_cons_left_iff, List.forall₂_cons_left_iff]
    simp only [readItem_trim ht, ih rest]

theorem parseList_iff {text : String} (hitems : ∀ t ∈ texts, IsItem t)
    (h : Joined texts text.toList) {as : List Assignment} : parseList text = .ok as ↔
      List.Forall₂ (fun t a => parse (String.ofList t) = .ok a) texts as := by
  simp only [parse, String.toList_ofList]
  exact readList_iff hitems h

/-! ### Printed assignments -/

theorem head?_toDigits {n : Nat} (h : 0 < n) : ∀ c ∈ (Nat.toDigits 10 n).head?, c ≠ '0' := by
  induction n using Nat.strong_induction_on with
  | _ n ih =>
    rw [Nat.toDigits_eq_if (by decide)]
    split
    · rename_i digit
      have few : ∀ d < 10, 0 < d → Nat.digitChar d ≠ '0' := by decide
      rintro c ⟨⟩
      exact few n digit h
    · rename_i more
      have quotient : 0 < n / 10 := Nat.div_pos (by omega) (by decide)
      intro c hc
      rw [List.head?_append_of_ne_nil _ Nat.toDigits_ne_nil] at hc
      exact ih (n / 10) (Nat.div_lt_self h (by decide)) quotient c hc

theorem readUnsignedTagged_toDigits {n : Nat} (h : n < Number.decimalBound) :
    Number.readUnsignedTagged (Nat.toDigits 10 n) = .ok n := by
  have digits : ∀ c ∈ Nat.toDigits 10 n, Number.isDigitIn 10 c = true := by
    intro c hc
    obtain ⟨d, hd, rfl⟩ := Number.mem_toDigits (by decide) hc
    simp [Number.isDigitIn, Number.digitValue_digitChar d (by omega), hd]
  have short : (Nat.toDigits 10 n).length ≤ Number.maxDecimalDigits := by
    unfold Number.decimalBound at h
    exact Number.Numeral.length_toDigits_ten (by decide) h
  have read := Number.readDigits_of_digits Nat.toDigits_ne_nil digits fun _ => short
  rw [Number.ofDigits_toDigits (by decide) (by decide)] at read
  rcases Nat.eq_zero_or_pos n with rfl | positive
  · rw [← read]
    rfl
  · have leading := head?_toDigits positive
    unfold Number.readUnsignedTagged
    split
    · rename_i eq
      rw [eq] at leading
      exact absurd rfl (leading '0' rfl)
    · exact read

/-- A number in decimal is written in digits, behind a minus sign if it is less than zero. -/
theorem toList_toString (k : Int) : ∃ n : Nat, n = k.natAbs ∧
    ((k = n ∧ (toString k).toList = Nat.toDigits 10 n) ∨
      (k = -n ∧ (toString k).toList = '-' :: Nat.toDigits 10 n)) := by
  cases k with
  | ofNat n => exact ⟨n, rfl, .inl ⟨rfl, Nat.toList_repr⟩⟩
  | negSucc n =>
    refine ⟨n + 1, rfl, .inr ⟨rfl, ?_⟩⟩
    show ("-" ++ (n + 1).repr).toList = _
    rw [String.toList_append, Nat.toList_repr]
    rfl

theorem plain_toDigits {n : Nat} {c : Char} (h : c ∈ Nat.toDigits 10 n) : Text.Plain c := by
  obtain ⟨d, hd, rfl⟩ := Number.mem_toDigits (by decide) h
  exact .of_isAlphanum (Number.isAlphanum_digitChar d (by omega))

theorem mem_toString {k : Int} {c : Char} (h : c ∈ (toString k).toList) :
    c = '-' ∨ Text.Plain c := by
  obtain ⟨n, -, ⟨-, text⟩ | ⟨-, text⟩⟩ := toList_toString k
  · rw [text] at h
    exact .inr (plain_toDigits h)
  · rw [text] at h
    exact (List.mem_cons.mp h).imp_right plain_toDigits

theorem readTagged_toString {k : Int} (h : k.natAbs < Number.decimalBound) :
    Number.readTagged (toString k).toList = .ok k := by
  have plain : Number.plainLiteral (toString k).toList = (toString k).toList := by
    refine Number.plainLiteral_visible fun c hc => ?_
    rcases mem_toString hc with rfl | plain
    · decide
    · exact plain.visible
  rw [Number.readTagged, plain]
  obtain ⟨n, same, ⟨positive, text⟩ | ⟨negative, text⟩⟩ := toList_toString k
  · have unsigned : ∀ c ∈ (Nat.toDigits 10 n).head?, c ≠ '-' ∧ c ≠ '+' :=
      fun c hc => (plain_toDigits (List.mem_of_mem_head? hc)).notSign
    rw [text, Number.readSigned_unsigned unsigned]
    exact ⟨n, readUnsignedTagged_toDigits (same ▸ h), positive.symm⟩
  · rw [text, Number.readSigned_minus]
    exact ⟨n, readUnsignedTagged_toDigits (same ▸ h), negative.symm⟩

theorem isItem_printed (a : Assignment) : IsItem a.printed := by
  have number (k : Int) : ∀ c ∈ (toString k).toList,
      (c ≠ ',' ∧ c ≠ '\n') ∧ c.toNat < 128 ∧ Text.isBlank c = false := by
    intro c hc
    rcases mem_toString hc with rfl | plain
    · decide
    · refine ⟨⟨?_, plain.notNewline⟩, Text.ascii_of_isAlphanum plain.alphanum, plain.notBlank⟩
      rintro rfl
      cases plain.alphanum
  have every : ∀ c ∈ a.printed, (c ≠ ',' ∧ c ≠ '\n') ∧ c.toNat < 128 ∧ Text.isBlank c = false := by
    rw [printed, List.forall_mem_append, List.forall_mem_cons]
    exact ⟨number a.address, by decide, number a.value⟩
  exact
    { separate := fun c hc => (every c hc).1
      ascii := fun c hc => (every c hc).2.1
      blanks := fun c hc blank => by
        rw [(every c hc).2.2] at blank
        cases blank
      visible := ⟨'=', by simp [printed], by decide⟩ }

theorem read_printed {a : Assignment} (h : a.IsShort) : read a.printed = .ok a := by
  have address : '=' ∉ (toString a.address).toList := by
    intro hc
    rcases mem_toString hc with eq | plain
    · cases eq
    · cases plain.alphanum
  rw [printed, read_eq_ok address, integer_iff_readTagged, integer_iff_readTagged]
  exact ⟨readTagged_toString h.1, readTagged_toString h.2⟩

end Assignment

end Accumulator
