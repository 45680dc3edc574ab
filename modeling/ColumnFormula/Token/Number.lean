import ColumnFormula.Decimal.Literal
import ColumnFormula.Token.Basic

/-!
# Values of numbers

A number token carries its literal as text, and a scan admits literals that stand for no number, such
as `1.2.3`.  This module gives a number token its value if it has one.
-/

namespace ColumnFormula.Token

/-- The value of a number token. -/
def decimal? (t : Token) : Option Decimal :=
  if t.kind = .number then t.text? >>= Decimal.ofText? else none

theorem decimal?_ofText (text : String) :
    (ofText .number text).decimal? = Decimal.ofText? text := rfl

end ColumnFormula.Token
