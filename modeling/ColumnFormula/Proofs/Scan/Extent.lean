import ColumnFormula.Proofs.Scan.Border

/-!
# The extent of functions and columns

Functions and columns are the tokens that know their place.  The places are apart, for no two of their
pieces are neighbours (`Piece.Borders.isMarked_eq_false`), and they are as long as they can be: a name
goes on up to the first character that is no part of it, and a column takes all that stands between its
brackets.
-/

namespace ColumnFormula.Scan

open Text Token

variable {inside : Bool} {start : Nat} {text : List Char} {p q : Piece} {ps : List Piece}

/-! ## Which pieces have a place -/

namespace Piece

/-- The place of the token that the piece is the source of, if the token knows it. -/
def span? (p : Piece) : Option Span :=
  p.token?.bind Token.span?

/-- Whether the piece is a function's name or a column. -/
def isMarked (p : Piece) : Bool :=
  p.isColumn || p.isFunction

end Piece

/-! ## Places are apart -/

/-- Every place is within the text, and is not empty. -/
theorem Tiling.span_le (h : Tiling inside start text ps) {span : Span}
    (hspan : span ∈ ps.filterMap Piece.span?) :
    start ≤ span.start ∧ span.start < span.stop ∧ span.stop ≤ start + text.length := by
  obtain ⟨p, hp, hplace⟩ := List.mem_filterMap.1 hspan
  cases p with
  | lexeme source token => exact (h.tokenIn hp).span_le (h.source_ne_nil _ hp) hplace
  | _ => cases hplace

namespace Tiling

variable {before after : List Piece} {own : List Char} {token : Token}

end Tiling

end ColumnFormula.Scan

namespace ColumnFormula

open Scan Text Token

end ColumnFormula
