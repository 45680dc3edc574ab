import ColumnFormula.Decimal.Basic

/-!
# Decimal literals

A text is read as a decimal in two steps.  The first takes it apart: a sign, the digits before the
point and what stands behind it.  It refuses every text that has anything else in it than digits and
underscores, also where digits no longer count.  The second gives the digits their value within the
bounds of a decimal.  Underscores group digits; before the point they have no meaning, and behind it
only one that stands right behind the last place has, so they are kept there.
-/

namespace ColumnFormula.Decimal

/-- The parts of a literal: the digits before the point, and the digits and underscores behind it. -/
structure Literal where
  negative : Bool
  whole : List Char
  fraction : List Char
  deriving DecidableEq, Repr

namespace Literal

/-- A digit, or an underscore between digits. -/
def isGrouped (c : Char) : Bool :=
  c.isDigit || c == '_'

/-- Whether no underscore comes before the first digit. -/
def groupsDigits (text : List Char) : Bool :=
  !(text.takeWhile (!·.isDigit)).contains '_'

/-- Reads digits with at most one point among them, and at least one digit. -/
def ofUnsigned? (negative : Bool) (text : List Char) : Option Literal :=
  let whole := (text.takeWhile isGrouped).filter (·.isDigit)
  match text.dropWhile isGrouped with
  | [] => if whole = [] then none else some ⟨negative, whole, []⟩
  | '.' :: fraction =>
    if fraction.all isGrouped ∧ (whole ≠ [] ∨ fraction.any (·.isDigit)) then
      some ⟨negative, whole, fraction⟩
    else none
  | _ => none

/-- Reads digits behind at most one sign. -/
def ofSigned? : List Char → Option Literal
  | '+' :: rest => ofUnsigned? false rest
  | '-' :: rest => ofUnsigned? true rest
  | text => ofUnsigned? false text

/-- Takes a text apart. -/
def ofChars? (text : List Char) : Option Literal :=
  if groupsDigits text then ofSigned? text else none

/-- The value of the literal, if its whole part is within bounds and stays so when rounded. -/
def value? (l : Literal) : Option Decimal :=
  (Magnitude.ofNat? (Text.valueOf l.whole) >>= (·.absorb? l.fraction)).map (signed l.negative)

end Literal

/-- Reads a text as a decimal. -/
def ofText? (text : String) : Option Decimal :=
  Literal.ofChars? text.toList >>= Literal.value?

end ColumnFormula.Decimal
