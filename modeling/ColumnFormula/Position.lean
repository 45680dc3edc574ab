/-!
# Positions

A position counts characters and is held in a word.  An offset is added to every position that is
reported, and nothing keeps the sum below the limit of a word: what is beyond it is cut off
(`wrap`).  Sums that a word holds are left as they are (`wrap_of_lt`).
-/

namespace ColumnFormula

/-- Positions are below this number, which is 2 to the power of 64. -/
def positionLimit : Nat := 18446744073709551616

/-- What a word holds of a sum of positions. -/
def wrap (n : Nat) : Nat :=
  n % positionLimit

theorem wrap_of_lt {n : Nat} (h : n < positionLimit) : wrap n = n :=
  Nat.mod_eq_of_lt h

/-- It does not matter after which of the additions a sum is cut. -/
theorem wrap_wrap_add (a b : Nat) : wrap (wrap a + b) = wrap (a + b) :=
  Nat.mod_add_mod a positionLimit b

end ColumnFormula
