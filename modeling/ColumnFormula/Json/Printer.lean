import ColumnFormula.Json.Basic
import ColumnFormula.Json.Text
import ColumnFormula.Text.Numeral

/-!
# Writing JSON

One printer for both layouts.  A layout says what stands in front of each item, and of the bracket
that closes a container with items, and what stands behind a colon.  The compact layout puts nothing
there; the indented one starts a line and gives each level two columns.  A container without items is
its two brackets in either.
-/

namespace ColumnFormula.Json

/-- Where a JSON text has space. -/
structure Layout where
  /-- In front of an item at the given depth. -/
  line : Nat → List Char
  /-- Behind the colon of a member. -/
  afterColon : List Char

/-- No space at all. -/
def Layout.compact : Layout :=
  ⟨fun _ => [], []⟩

/-- An item to a line, two columns to a level. -/
def Layout.indented : Layout :=
  ⟨fun depth => '\n' :: List.replicate (2 * depth) ' ', [' ']⟩

/-- An exponent, if there is one. -/
def printExponent : Option Int → List Char
  | none => []
  | some e => 'e' :: (if e < 0 then ['-'] else []) ++ Text.digits e.natAbs

/-- A number as its parts say it. -/
def printNumber (n : Number) : List Char :=
  (if n.negative then ['-'] else []) ++ Text.placed n.mantissa n.scale ++ printExponent n.exponent

mutual

/-- A value whose brackets stand at the given depth. -/
def print (layout : Layout) (depth : Nat) : Json → List Char
  | .null => ['n', 'u', 'l', 'l']
  | .bool true => ['t', 'r', 'u', 'e']
  | .bool false => ['f', 'a', 'l', 's', 'e']
  | .number n => printNumber n
  | .string text => quoted text
  | .array [] => ['[', ']']
  | .array (item :: items) =>
    '[' :: layout.line (depth + 1) ++ print layout (depth + 1) item ++
      printItems layout (depth + 1) items ++ layout.line depth ++ [']']
  | .object [] => ['{', '}']
  | .object ((name, value) :: members) =>
    '{' :: layout.line (depth + 1) ++ quoted name ++ ':' :: layout.afterColon ++
      print layout (depth + 1) value ++ printMembers layout (depth + 1) members ++
      layout.line depth ++ ['}']

/-- The items of an array behind its first. -/
def printItems (layout : Layout) (depth : Nat) : List Json → List Char
  | [] => []
  | item :: items =>
    ',' :: layout.line depth ++ print layout depth item ++ printItems layout depth items

/-- The members of an object behind its first. -/
def printMembers (layout : Layout) (depth : Nat) : List (Option String × Json) → List Char
  | [] => []
  | (name, value) :: members =>
    ',' :: layout.line depth ++ quoted name ++ ':' :: layout.afterColon ++
      print layout depth value ++ printMembers layout depth members

end

/-- A value as a JSON text. -/
def render (layout : Layout) (value : Json) : String :=
  String.ofList (print layout 0 value)

end ColumnFormula.Json
