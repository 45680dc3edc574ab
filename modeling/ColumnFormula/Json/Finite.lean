import ColumnFormula.Json.Basic

/-!
# Numbers that can be held

A number that is held as data is held in binary64, as the product of two factors: its leading digits,
as many as fit a word of 64 bits, and a power of ten that makes up for the point, the exponent and the
digits left out.  Both factors are rounded before they are multiplied, so the bound on what can be held
is not quite the bound of binary64: of two numbers close to it, the larger may be held and the smaller
not.
-/

namespace ColumnFormula.Json

/-- A natural number rounded to 53 binary digits, a half to the even neighbour.  This is the number
itself as long as it has no more digits. -/
def roundBinary (n : Nat) : Nat :=
  let unit := Nat.pow 2 (n.log2 + 1 - 53)
  let below := n / unit * unit
  let rest := n % unit
  if 2 * rest < unit ∨ (2 * rest = unit ∧ n / unit % 2 = 0) then below else below + unit

/-- From this number on, rounding to binary64 gives no finite number: the largest finite one and half
of the distance to the next power of two. -/
def overflow : Nat := Nat.pow 2 1024 - Nat.pow 2 970

namespace Number

/-- How many of the last digits of a number are left out so that the others fit a word of 64 bits. -/
def leftOut (mantissa : Nat) : Nat :=
  let spare := (Nat.toDigits 10 mantissa).length - 20
  if mantissa / Nat.pow 10 spare < Nat.pow 2 64 then spare else spare + 1

/-- The leading digits of the number, as many as fit a word of 64 bits. -/
def significand (n : Number) : Nat :=
  n.mantissa / Nat.pow 10 (leftOut n.mantissa)

/-- The exponent of ten that belongs to the significand. -/
def decimalExponent (n : Number) : Int :=
  n.exponent.getD 0 + leftOut n.mantissa - n.scale

/-- Whether the number can be held.  A significand is divided by a power of ten below one, which keeps
it finite, and multiplied by one up to `10 ^ 308`, the last that binary64 has. -/
def isFinite (n : Number) : Bool :=
  n.significand == 0 ||
    match n.decimalExponent with
    | .ofNat e =>
      decide (e ≤ 308) && decide (roundBinary n.significand * roundBinary (Nat.pow 10 e) < overflow)
    | .negSucc _ => true

end Number

/-- Whether a value can be held as data: all strings in it stand for texts, all numbers can be held,
and containers are nested at most `levels` deep. -/
def isStorable : Nat → Json → Bool
  | _, .null => true
  | _, .bool _ => true
  | _, .number n => n.isFinite
  | _, .string text => text.isSome
  | 0, .array _ => false
  | 0, .object _ => false
  | levels + 1, .array items => items.all (isStorable levels)
  | levels + 1, .object members =>
    members.all fun (name, value) => name.isSome && isStorable levels value

end ColumnFormula.Json
