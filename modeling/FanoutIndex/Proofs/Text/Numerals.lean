import Mathlib
import FanoutIndex.Text.Numeral

namespace FanoutIndex.Text

/-- A text is its core between blanks, and the core does not begin or end with one. -/
structure IsTrimmed (text core : List Char) : Prop where
  split : ∃ before after, text = before ++ (core ++ after) ∧
    (∀ c ∈ before, isBlank c = true) ∧ ∀ c ∈ after, isBlank c = true
  first : ∀ c ∈ core.head?, isBlank c = false
  last : ∀ c ∈ core.getLast?, isBlank c = false

def digitValue (c : Char) : Nat := c.toNat - '0'.toNat

/-- The number that decimal digits stand for, the last of which counts ones. -/
def decimal (digits : List Char) : Nat := Nat.ofDigits 10 (digits.reverse.map digitValue)

/-- A text is one or more decimal digits after at most one plus sign. -/
inductive IsNumeral : List Char → Nat → Prop
  | plain {digits : List Char} (nonempty : digits ≠ []) (all : ∀ c ∈ digits, c.isDigit = true) :
      IsNumeral digits (decimal digits)
  | plus {digits : List Char} (nonempty : digits ≠ []) (all : ∀ c ∈ digits, c.isDigit = true) :
      IsNumeral ('+' :: digits) (decimal digits)

/-- A text denotes a number if what is left of it without blanks is a numeral of the number. -/
def Denotes (text : List Char) (number : Nat) : Prop :=
  ∃ core, IsTrimmed text core ∧ IsNumeral core number

variable {text core before digits : List Char} {number other : Nat}

section Trim

theorem not_isBlank_head?_dropWhile (text : List Char) :
    ∀ c ∈ (text.dropWhile isBlank).head?, isBlank c = false := by
  intro c hc
  have h := List.head?_dropWhile_not isBlank text
  rw [hc] at h
  simpa using h

theorem dropWhile_isBlank_append (blank : ∀ c ∈ before, isBlank c = true)
    (first : ∀ c ∈ text.head?, isBlank c = false) : (before ++ text).dropWhile isBlank = text := by
  rw [List.dropWhile_append_of_pos blank]
  cases text with
  | nil => rfl
  | cons c rest => exact List.dropWhile_cons_of_neg (by simpa using first)

theorem isTrimmed_trimBlank (text : List Char) : IsTrimmed text (trimBlank text) := by
  obtain ⟨inner, hinner⟩ : ∃ inner, inner = text.dropWhile isBlank := ⟨_, rfl⟩
  have hsplit : inner = trimBlank text ++ (inner.reverse.takeWhile isBlank).reverse := by
    rw [trimBlank, ← hinner, ← List.reverse_append, List.takeWhile_append_dropWhile,
      List.reverse_reverse]
  refine ⟨⟨text.takeWhile isBlank, (inner.reverse.takeWhile isBlank).reverse, ?_, ?_, ?_⟩, ?_, ?_⟩
  · rw [← hsplit, hinner, List.takeWhile_append_dropWhile]
  · exact fun c hc => List.mem_takeWhile_imp hc
  · exact fun c hc => List.mem_takeWhile_imp (List.mem_reverse.1 hc)
  · intro c hc
    apply not_isBlank_head?_dropWhile text
    rw [← hinner, hsplit]
    exact List.mem_head?_append_of_mem_head? hc
  · intro c hc
    apply not_isBlank_head?_dropWhile inner.reverse
    rwa [trimBlank, ← hinner, List.getLast?_reverse] at hc

theorem trimBlank_eq_iff : trimBlank text = core ↔ IsTrimmed text core := by
  constructor
  · rintro rfl
    exact isTrimmed_trimBlank text
  · rintro ⟨⟨before, after, rfl, hbefore, hafter⟩, first, last⟩
    cases hcore : core with
    | nil =>
      have hblank : ∀ c ∈ before ++ after, isBlank c = true := by
        intro c hc
        exact (List.mem_append.1 hc).elim (hbefore c) (hafter c)
      rw [trimBlank, List.nil_append, List.dropWhile_eq_nil_iff.2 hblank]
      rfl
    | cons c rest =>
      rw [← hcore]
      have hhead : ∀ d ∈ (core ++ after).head?, isBlank d = false := by
        rw [hcore] at first ⊢
        exact first
      have hlast : ∀ d ∈ core.reverse.head?, isBlank d = false := by
        rwa [List.head?_reverse]
      rw [trimBlank, dropWhile_isBlank_append hbefore hhead, List.reverse_append,
        dropWhile_isBlank_append (fun d hd => hafter d (List.mem_reverse.1 hd)) hlast,
        List.reverse_reverse]

end Trim

section Read

theorem digitValues?_cons (c : Char) (rest : List Char) : digitValues? (c :: rest) =
    if c.isDigit then (digitValues? rest).map (digitValue c :: ·) else none := by
  rw [digitValues?, List.mapM_cons]
  split_ifs with h
  · rw [digitValues?]
    cases rest.mapM fun c => if c.isDigit then some (c.toNat - '0'.toNat) else none <;> rfl
  · rfl

theorem digitValues?_eq_some_iff {values : List Nat} : digitValues? text = some values ↔
    (∀ c ∈ text, c.isDigit = true) ∧ values = text.map digitValue := by
  induction text generalizing values with
  | nil =>
    rw [digitValues?, List.mapM_nil, List.map_nil]
    constructor
    · intro h
      cases h
      exact ⟨fun c hc => absurd hc List.not_mem_nil, rfl⟩
    · rintro ⟨_, rfl⟩
      rfl
  | cons c rest ih =>
    rw [digitValues?_cons, List.forall_mem_cons, List.map_cons]
    split_ifs with h
    · simp only [Option.map_eq_some_iff, ih, h, true_and]
      constructor
      · rintro ⟨others, ⟨hall, rfl⟩, rfl⟩
        exact ⟨hall, rfl⟩
      · rintro ⟨hall, rfl⟩
        exact ⟨_, ⟨hall, rfl⟩, rfl⟩
    · simp [h]

theorem ofDigits_eq (values : List Nat) : ofDigits values = Nat.ofDigits 10 values.reverse := by
  induction values using List.reverseRecOn with
  | nil => rfl
  | append_singleton values d ih =>
    rw [ofDigits, List.foldl_append, List.reverse_append, List.reverse_singleton,
      List.singleton_append, Nat.ofDigits_cons, ← ih]
    simp [ofDigits, Nat.add_comm]

theorem ofDigits_map_digitValue (digits : List Char) :
    ofDigits (digits.map digitValue) = decimal digits := by
  rw [ofDigits_eq, ← List.map_reverse, decimal]

/-- A plus sign is no digit, so there is only one way to read a numeral. -/
theorem dropPlus_of_isDigit (all : ∀ c ∈ digits, c.isDigit = true) : dropPlus digits = digits := by
  cases digits with
  | nil => rfl
  | cons c rest =>
    have hne : c ≠ '+' := by
      rintro rfl
      exact absurd (all '+' List.mem_cons_self) (by decide)
    rw [dropPlus]
    exact fun _ h => hne (List.cons.inj h).1

theorem eq_dropPlus_or (text : List Char) : text = dropPlus text ∨ text = '+' :: dropPlus text := by
  unfold dropPlus
  split
  · exact .inr rfl
  · exact .inl rfl

theorem isNumeral_iff : IsNumeral text number ↔ dropPlus text ≠ [] ∧
    (∀ c ∈ dropPlus text, c.isDigit = true) ∧ number = decimal (dropPlus text) := by
  constructor
  · intro h
    cases h with
    | plain nonempty all =>
      rw [dropPlus_of_isDigit all]
      exact ⟨nonempty, all, rfl⟩
    | plus nonempty all => exact ⟨nonempty, all, rfl⟩
  · rintro ⟨nonempty, all, rfl⟩
    rcases eq_dropPlus_or text with h | h
    · rw [← h] at nonempty all ⊢
      exact .plain nonempty all
    · have hplus := IsNumeral.plus nonempty all
      rwa [← h] at hplus

/-- What is read as a number is a numeral of it, and the number has 64 bits. -/
theorem numeral?_eq_some_iff :
    numeral? text = some number ↔ IsNumeral text number ∧ number < 2 ^ 64 := by
  rw [isNumeral_iff, numeral?]
  split
  · next hnil => simp [hnil]
  · next hne =>
    simp only [Option.bind_eq_some_iff, digitValues?_eq_some_iff, Option.ite_none_right_eq_some,
      Option.some.injEq]
    constructor
    · rintro ⟨_, ⟨all, rfl⟩, hlt, rfl⟩
      rw [ofDigits_map_digitValue] at hlt ⊢
      exact ⟨⟨hne, all, rfl⟩, hlt⟩
    · rintro ⟨⟨_, all, rfl⟩, hlt⟩
      refine ⟨_, ⟨all, rfl⟩, ?_⟩
      rw [ofDigits_map_digitValue]
      exact ⟨hlt, rfl⟩

theorem denotes_iff : Denotes text number ↔ IsNumeral (trimBlank text) number := by
  constructor
  · rintro ⟨core, htrim, hnumeral⟩
    rwa [trimBlank_eq_iff.2 htrim]
  · intro h
    exact ⟨_, isTrimmed_trimBlank text, h⟩

theorem numeral?_trimBlank_eq_some_iff :
    numeral? (trimBlank text) = some number ↔ Denotes text number ∧ number < 2 ^ 64 := by
  rw [numeral?_eq_some_iff, denotes_iff]

theorem numeral?_trimBlank_eq_none_iff :
    numeral? (trimBlank text) = none ↔ ¬∃ number < 2 ^ 64, Denotes text number := by
  simp only [Option.eq_none_iff_forall_ne_some, ne_eq, numeral?_trimBlank_eq_some_iff, not_exists,
    not_and]
  exact forall_congr' fun number => forall_comm

theorem Denotes.unique (h : Denotes text number) (h' : Denotes text other) : number = other := by
  obtain ⟨_, _, hnumber⟩ := isNumeral_iff.1 (denotes_iff.1 h)
  obtain ⟨_, _, hother⟩ := isNumeral_iff.1 (denotes_iff.1 h')
  rw [hnumber, hother]

end Read

end FanoutIndex.Text
