import ColumnFormula.Text.Blank
import ColumnFormula.Token.Operator

/-!
# Roles of characters

What the scan does next depends on one character.  The role of a character says which of the ten
things it can be where a token may begin; inside a number, a name, a string or a bracket the scan
does not ask for it.  The classes behind the roles are disjoint, so each is characterised by itself.
-/

namespace ColumnFormula.Scan

open Text Token

/-- The characters of a function's name.  A name does not start with a digit, for a digit where a
token may begin starts a number. -/
def isNameChar (c : Char) : Bool :=
  c.isAlphanum || c == '_' || c == '$'

/-- The two characters that a string is put between. -/
def isQuote (c : Char) : Bool :=
  c == '"' || c == '\''

/-- What a character is where a token may begin. -/
inductive Role
  | blank
  | operator (kind : Kind)
  | closing
  | opening
  | separator
  | digit
  | bracket
  | quote
  | name
  | unexpected
  deriving DecidableEq, Repr

/-- The role of a character. -/
def Role.of (c : Char) : Role :=
  if isBlank c then .blank
  else match Operator.kindOfChar? c with
    | some kind => .operator kind
    | none =>
      if c = ')' then .closing
      else if c = '(' then .opening
      else if c = ',' then .separator
      else if c.isDigit then .digit
      else if c = '[' then .bracket
      else if isQuote c then .quote
      else if isNameChar c then .name
      else .unexpected

namespace Role

theorem of_eq_blank_iff {c : Char} : of c = .blank ↔ isBlank c = true := by
  unfold of
  split
  · simp [*]
  · split
    · simp [*]
    · repeat' split
      all_goals simp_all

/-- A character is unexpected if it belongs to none of the classes that a token starts with. -/
theorem of_eq_unexpected_iff {c : Char} :
    of c = .unexpected ↔
      isBlank c = false ∧ Operator.kindOfChar? c = none ∧ c ≠ ')' ∧ c ≠ '(' ∧ c ≠ ',' ∧
        c.isDigit = false ∧ c ≠ '[' ∧ isQuote c = false ∧ isNameChar c = false := by
  unfold of
  split
  · simp [*]
  · split
    · simp [*]
    · repeat' split
      all_goals simp [*]

/-! ## Each role by its class -/

theorem of_eq_closing_iff {c : Char} : of c = .closing ↔ c = ')' := by
  constructor
  · intro h
    unfold of at h
    repeat' split at h
    all_goals simp_all
  · rintro rfl
    decide

theorem of_eq_opening_iff {c : Char} : of c = .opening ↔ c = '(' := by
  constructor
  · intro h
    unfold of at h
    repeat' split at h
    all_goals simp_all
  · rintro rfl
    decide

theorem of_eq_separator_iff {c : Char} : of c = .separator ↔ c = ',' := by
  constructor
  · intro h
    unfold of at h
    repeat' split at h
    all_goals simp_all
  · rintro rfl
    decide

theorem of_eq_bracket_iff {c : Char} : of c = .bracket ↔ c = '[' := by
  constructor
  · intro h
    unfold of at h
    repeat' split at h
    all_goals simp_all
  · rintro rfl
    decide

theorem of_eq_quote_iff {c : Char} : of c = .quote ↔ c = '"' ∨ c = '\'' := by
  constructor
  · intro h
    unfold of at h
    repeat' split at h
    all_goals simp_all [isQuote]
  · rintro (rfl | rfl) <;> decide

theorem of_eq_operator_iff {c : Char} {kind : Kind} :
    of c = .operator kind ↔ Operator.kindOfChar? c = some kind := by
  constructor
  · intro h
    unfold of at h
    repeat' split at h
    all_goals simp_all
  · intro h
    have hmem := Operator.kindOfChar?_eq_some_iff.1 h
    simp only [List.mem_cons, Prod.mk.injEq, List.not_mem_nil, or_false] at hmem
    rcases hmem with ⟨rfl, rfl⟩ | ⟨rfl, rfl⟩ | ⟨rfl, rfl⟩ | ⟨rfl, rfl⟩ | ⟨rfl, rfl⟩ | ⟨rfl, rfl⟩ |
      ⟨rfl, rfl⟩ <;> decide

/-- A character of a name is no blank and no operator. -/
theorem of_isNameChar {c : Char} (h : isNameChar c = true) :
    isBlank c = false ∧ Operator.kindOfChar? c = none := by
  have hrange : (48 ≤ c.toNat ∧ c.toNat ≤ 57) ∨ (65 ≤ c.toNat ∧ c.toNat ≤ 90) ∨
      (97 ≤ c.toNat ∧ c.toNat ≤ 122) ∨ c.toNat = 95 ∨ c.toNat = 36 := by
    simp only [isNameChar, Char.isAlphanum] at h
    delta Char.isAlpha Char.isUpper Char.isLower at h
    simp only [Char.isDigit, Bool.or_eq_true, Bool.and_eq_true, decide_eq_true_eq, beq_iff_eq,
      UInt32.le_iff_toNat_le, ge_iff_le] at h
    have hval : c.toNat = c.val.toNat := rfl
    rcases h with ((((h | h) | h) | rfl) | rfl)
    · exact Or.inr (Or.inl h)
    · exact Or.inr (Or.inr (Or.inl h))
    · exact Or.inl h
    · decide
    · decide
  constructor
  · rw [Bool.eq_false_iff]
    intro hb
    obtain ⟨range, hmem, hlo, hhi⟩ := isBlank_iff.1 hb
    simp only [blankRanges, List.mem_cons, List.not_mem_nil, or_false] at hmem
    rcases hmem with rfl | rfl | rfl | rfl | rfl | rfl | rfl | rfl | rfl | rfl <;>
      simp only at hlo hhi <;> omega
  · cases hk : Operator.kindOfChar? c with
    | none => rfl
    | some kind =>
      have hmem := Operator.kindOfChar?_eq_some_iff.1 hk
      simp only [List.mem_cons, Prod.mk.injEq, List.not_mem_nil, or_false] at hmem
      rcases hmem with ⟨rfl, _⟩ | ⟨rfl, _⟩ | ⟨rfl, _⟩ | ⟨rfl, _⟩ | ⟨rfl, _⟩ | ⟨rfl, _⟩ | ⟨rfl, _⟩ <;>
        exact absurd h (by decide)

theorem of_eq_digit_iff {c : Char} : of c = .digit ↔ c.isDigit = true := by
  constructor
  · intro h
    unfold of at h
    repeat' split at h
    all_goals simp_all
  · intro h
    obtain ⟨hb, hk⟩ := of_isNameChar (c := c) (by simp [isNameChar, Char.isAlphanum, h])
    have hne : c ≠ ')' ∧ c ≠ '(' ∧ c ≠ ',' := by
      refine ⟨?_, ?_, ?_⟩ <;> rintro rfl <;> exact absurd h (by decide)
    simp [of, hb, hk, hne, h]

/-- A name starts with a character of a name that is no digit. -/
theorem of_eq_name_iff {c : Char} :
    of c = .name ↔ isNameChar c = true ∧ c.isDigit = false := by
  constructor
  · intro h
    unfold of at h
    repeat' split at h
    all_goals simp_all
  · rintro ⟨h, hd⟩
    obtain ⟨hb, hk⟩ := of_isNameChar h
    have hne : c ≠ ')' ∧ c ≠ '(' ∧ c ≠ ',' ∧ c ≠ '[' ∧ isQuote c = false := by
      refine ⟨?_, ?_, ?_, ?_, ?_⟩
      · rintro rfl
        exact absurd h (by decide)
      · rintro rfl
        exact absurd h (by decide)
      · rintro rfl
        exact absurd h (by decide)
      · rintro rfl
        exact absurd h (by decide)
      · rw [Bool.eq_false_iff]
        intro hq
        simp only [isQuote, Bool.or_eq_true, beq_iff_eq] at hq
        rcases hq with rfl | rfl <;> exact absurd h (by decide)
    simp [of, hb, hk, hne, hd, h]

end Role

end ColumnFormula.Scan
