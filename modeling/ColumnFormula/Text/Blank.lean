/-!
# Blank characters and line controls

Two classes of characters that never become part of a token on their own.  Blanks separate tokens;
they are the characters of the Unicode property `White_Space`, given here by its ten ranges.  Line
controls are the four characters that are taken out of an expression before it is scanned; all four
are blanks, and the line tabulation U+000B is a blank that stays.
-/

namespace ColumnFormula.Text

/-- The ranges of the Unicode property `White_Space`, each by its first and last code point. -/
def blankRanges : List (Nat × Nat) :=
  [(0x09, 0x0D), (0x20, 0x20), (0x85, 0x85), (0xA0, 0xA0), (0x1680, 0x1680), (0x2000, 0x200A),
    (0x2028, 0x2029), (0x202F, 0x202F), (0x205F, 0x205F), (0x3000, 0x3000)]

/-- A character that separates tokens: one with the property `White_Space`. -/
def isBlank (c : Char) : Bool :=
  blankRanges.any fun range => range.1 ≤ c.toNat && c.toNat ≤ range.2

/-- Tabulation, line feed, form feed and carriage return: the characters that are no part of an
expression, wherever they stand in it. -/
def isLineControl (c : Char) : Bool :=
  c == '\t' || c == '\n' || c == '\x0c' || c == '\r'

theorem isLineControl_iff {c : Char} :
    isLineControl c = true ↔ c = '\t' ∨ c = '\n' ∨ c = '\x0c' ∨ c = '\r' := by
  simp [isLineControl, or_assoc]

theorem isBlank_of_isLineControl {c : Char} (h : isLineControl c = true) : isBlank c = true := by
  rcases isLineControl_iff.1 h with rfl | rfl | rfl | rfl <;> decide

/-- A code point in one of the ranges, as arithmetic. -/
theorem isBlank_iff {c : Char} :
    isBlank c = true ↔ ∃ range ∈ blankRanges, range.1 ≤ c.toNat ∧ c.toNat ≤ range.2 := by
  simp [isBlank]

example : (blankRanges.map fun range => range.2 + 1 - range.1).sum = 25 := by decide
example : [0x1C, 0x1F, 0x180E, 0x200B, 0xFEFF].all (fun n => !isBlank (Char.ofNat n)) = true := by
  decide

end ColumnFormula.Text
