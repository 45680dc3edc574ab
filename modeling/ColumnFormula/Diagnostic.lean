/-!
# Diagnostics

A scan never fails.  What it cannot read it drops, and it says so in a diagnostic: which character
stopped it, in which expression, and at which position.
-/

namespace ColumnFormula

/-- A character that no token starts with, met at the reported position of an expression. -/
structure Diagnostic where
  character : Char
  expression : String
  position : Nat
  deriving DecidableEq, Repr

namespace Diagnostic

/-- How serious a diagnostic is: the scan goes on after it. -/
def level (_ : Diagnostic) : String := "WARN"

/-- The diagnostic in words. -/
def message (d : Diagnostic) : String :=
  "Unexpected character '" ++ String.singleton d.character ++ "' while tokenizing expression"

/-- The line of a diagnostic in a log. -/
def line (d : Diagnostic) : String :=
  d.level ++ " " ++ d.message ++ " at position " ++ Nat.repr d.position ++ "\n"

end Diagnostic

end ColumnFormula
