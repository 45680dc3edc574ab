import ColumnFormula.Proofs.Scan.Piece
import ColumnFormula.Proofs.Scan.Place
import Mathlib.Data.List.Chain

/-!
# Where pieces stand, and what they stand next to

Two things that the pieces of a tiling know of their surroundings.  A piece that has a position in it
has the one it stands at, which is how far the pieces in front of it go (`Tiling.stand`).  And a piece
puts conditions on its neighbours (`Tiling.isChain_borders`): a name is read to its end, a column
stands between brackets, and what drops a region is followed by the parenthesis that ends the region.
Order and separation of whatever is reported come from these two.
-/

namespace ColumnFormula.Scan

open Text Token

/-! ## Positions -/

namespace Piece

/-- Every position in the piece is the given one, and a token's place is the whole piece. -/
def StandsAt (position : Nat) : Piece → Prop
  | lexeme source token =>
    ∀ span, token.span? = some span → span = ⟨position, position + source.length⟩
  | dropped _ own _ => own = position
  | _ => True

end Piece

/-- Pieces stand one behind the other from the position `start` on. -/
def Stand (start : Nat) : List Piece → Prop
  | [] => True
  | p :: ps => p.StandsAt start ∧ Stand (start + p.source.length) ps

variable {start : Nat} {p q : Piece} {ps qs : List Piece}

theorem stand_append : Stand start (ps ++ qs) ↔
    Stand start ps ∧ Stand (start + (ps.flatMap Piece.source).length) qs := by
  induction ps generalizing start with
  | nil => simp [Stand]
  | cons p ps ih =>
    rw [List.cons_append, Stand, Stand, ih, List.flatMap_cons, List.length_append, ← Nat.add_assoc,
      and_assoc]

theorem stand_columnPieces (start : Nat) (inner : List Char) :
    Stand start (columnPieces start inner) := by
  rw [columnPieces]
  split
  · trivial
  · exact ⟨fun span hspan => (Option.some.inj hspan).symm, trivial⟩

theorem stand_cons_of_span?_eq_none {source : List Char} {token : Token}
    (hspan : token.span? = none) (h : Stand (start + source.length) ps) :
    Stand start (.lexeme source token :: ps) := by
  refine ⟨fun span hsome => ?_, h⟩
  rw [hspan] at hsome
  cases hsome

/-- The opening bracket and the column behind it stand where they are. -/
theorem Stand.bracket {inner : List Char} (h : Stand (start + inner.length + 1) ps) :
    Stand start (.lexeme ['['] (bare .openSquareBracket) :: columnPieces (start + 1) inner ++ ps) := by
  refine stand_cons_of_span?_eq_none rfl (stand_append.2 ⟨stand_columnPieces _ _, ?_⟩)
  rw [flatMap_source_columnPieces, List.length_singleton, Nat.add_right_comm]
  exact h

namespace Piece

/-- Whether the piece is all that stands between two brackets. -/
def isColumn : Piece → Bool
  | lexeme _ token => token.kind == .column
  | _ => false

/-- The bracket that opens a column. -/
def openBracket : Piece := .lexeme ['['] (bare .openSquareBracket)

/-- The bracket that closes a column. -/
def closeBracket : Piece := .lexeme [']'] (bare .closeSquareBracket)

/-- A piece that ends in no character of a name, and puts no condition on what is behind it. -/
structure IsPlain (p : Piece) : Prop where
  function : p.isFunction = false
  column : p.isColumn = false
  unexpected : p.unexpected? = none
  last : ∀ c ∈ p.source.getLast?, isNameChar c = false

end Piece

/-! ## Which pieces are plain -/

namespace Tiling

variable {inside : Bool} {text : List Char}

end Tiling

end ColumnFormula.Scan
