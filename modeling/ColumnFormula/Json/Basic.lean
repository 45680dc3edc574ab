/-!
# JSON values

The values that a JSON text stands for, as far as a reader of this library can tell them apart.
Members of an object keep their order and their repetitions.  A number keeps what its grammar says:
a sign, digits with a point among them, an exponent.  A string may be grammatical and yet stand for no
text, when it escapes half of a surrogate pair without the other half; such a string, and such a
member's name, is `none`.
-/

namespace ColumnFormula

namespace Json

/-- A number as written: `mantissa` over ten to the `scale`, the scale being the number of digits
behind the point, times ten to the `exponent`. -/
structure Number where
  negative : Bool
  mantissa : Nat
  scale : Nat
  exponent : Option Int
  deriving DecidableEq, Repr

end Json

/-- A JSON value. -/
inductive Json
  | null
  | bool (b : Bool)
  | number (n : Json.Number)
  | string (text : Option String)
  | array (items : List Json)
  | object (members : List (Option String × Json))
  deriving Repr

namespace Json

/-- A string that stands for a text. -/
def ofString (text : String) : Json :=
  .string (some text)

/-- A natural number, written in digits. -/
def ofNat (n : Nat) : Json :=
  .number ⟨false, n, 0, none⟩

/-- An object, its members named by texts. -/
def ofMembers (members : List (String × Json)) : Json :=
  .object (members.map fun (name, value) => (some name, value))

namespace Number

/-- The value of a number written in digits alone. -/
def toNat? (n : Number) : Option Nat :=
  if n.negative = false ∧ n.scale = 0 ∧ n.exponent = none then some n.mantissa else none

end Number

@[simp] theorem toNat?_ofNat (n : Nat) : (Number.mk false n 0 none).toNat? = some n := rfl

end Json

end ColumnFormula
