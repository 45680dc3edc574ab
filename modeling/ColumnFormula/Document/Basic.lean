import ColumnFormula.Json.Basic
import ColumnFormula.Position

/-!
# Members of documents

What the readers of documents share.  A record is written as an object, whose members may come in any
order and may be accompanied by others, or as an array of its fields in their order.  Either way a
reader gets each field as a value that may be missing.  A member that a record knows may be there only
once, and every member of a record has to have a text for a name.
-/

namespace ColumnFormula.Document

/-- Whether the names of all members are texts. -/
def namesAreTexts (members : List (Option String × Json)) : Bool :=
  members.all fun (name, _) => name.isSome

/-- The field of a name: missing, there once, or, as `none`, there more than once. -/
def field? (members : List (Option String × Json)) (name : String) : Option (Option Json) :=
  match members.filter fun (n, _) => n == some name with
  | [] => some none
  | [(_, value)] => some (some value)
  | _ => none

/-- Reads a field that may be missing or null. -/
def optional? {α : Type} (read : Json → Option α) : Option Json → Option (Option α)
  | none => some none
  | some .null => some none
  | some value => (read value).map some

/-- Reads a field that has to be there. -/
def required? {α : Type} (read : Json → Option α) (value : Option Json) : Option α :=
  value >>= read

/-- Reads a position: a number in digits alone. -/
def position? : Json → Option Nat
  | .number n => n.toNat?.filter (· < positionLimit)
  | _ => none

/-- Reads a string that stands for a text. -/
def text? : Json → Option String
  | .string text => text
  | _ => none

/-- Reads a name out of a list of names: a string, or an object whose one member bears the name and is
null. -/
def named? {α : Type} (ofName? : String → Option α) : Json → Option α
  | .string (some name) => ofName? name
  | .object [(some name, .null)] => ofName? name
  | _ => none

/-- The member of a field that is written only if it is there. -/
def memberOf {α : Type} (name : String) (write : α → Json) : Option α → List (String × Json)
  | none => []
  | some a => [(name, write a)]

theorem position?_ofNat {n : Nat} (h : n < positionLimit) : position? (.ofNat n) = some n := by
  simp [position?, Json.ofNat, h]

end ColumnFormula.Document
