import ColumnFormula.Json.Lexeme

/-!
# Reading JSON

The second step of reading: from lexemes to the value they spell.  The reader keeps the containers
that are open in a stack of frames, each with what it holds so far, the newest in front.  It goes
through the lexemes once and stands either where a value must come or behind one, so it is a pair of
functions on the lexemes that are left.  What follows the outermost value is refused.
-/

namespace ColumnFormula.Json

/-- A container that has been opened and not yet closed, with its contents so far, the newest
first. -/
inductive Frame
  | array (items : List Json)
  | object (members : List (Option String × Json)) (name : Option String)
  deriving Repr

mutual

/-- Reads on where a value must come. -/
def readValue (stack : List Frame) : List Lexeme → Option Json
  | .null :: rest => readAfter .null stack rest
  | .bool b :: rest => readAfter (.bool b) stack rest
  | .number n :: rest => readAfter (.number n) stack rest
  | .string text :: rest => readAfter (.string text) stack rest
  | .openArray :: .closeArray :: rest => readAfter (.array []) stack rest
  | .openArray :: rest => readValue (.array [] :: stack) rest
  | .openObject :: .closeObject :: rest => readAfter (.object []) stack rest
  | .openObject :: .string name :: .colon :: rest => readValue (.object [] name :: stack) rest
  | _ => none

/-- Reads on behind a value. -/
def readAfter (value : Json) (stack : List Frame) : List Lexeme → Option Json
  | [] =>
    match stack with
    | [] => some value
    | _ :: _ => none
  | .comma :: rest =>
    match stack with
    | .array items :: stack => readValue (.array (value :: items) :: stack) rest
    | .object members name :: stack =>
      match rest with
      | .string next :: .colon :: rest =>
        readValue (.object ((name, value) :: members) next :: stack) rest
      | _ => none
    | [] => none
  | .closeArray :: rest =>
    match stack with
    | .array items :: stack => readAfter (.array (value :: items).reverse) stack rest
    | _ => none
  | .closeObject :: rest =>
    match stack with
    | .object members name :: stack =>
      readAfter (.object ((name, value) :: members).reverse) stack rest
    | _ => none
  | _ => none

end

/-- Reads a JSON text. -/
def parse? (text : String) : Option Json :=
  lexemes? text.toList >>= readValue []

end ColumnFormula.Json
