import ColumnFormula.Text.Numeral

/-!
# Decimals

A decimal is a mantissa of at most 96 bits over a power of ten, the scale, of at most 28, with a sign.
Two decimals of one value may differ in scale, and the scale is kept: it is the number of digits
written behind the point.  Zero has no sign.  The bounds are fields of the type, so that nothing else
has to carry them.
-/

namespace ColumnFormula

namespace Decimal

/-- Mantissas are below this number. -/
def limit : Nat := Nat.pow 2 96

/-- The most digits behind the point. -/
def maxScale : Nat := 28

/-- A decimal without its sign: `mantissa` over ten to the `scale`. -/
structure Magnitude where
  mantissa : Nat
  scale : Nat
  mantissa_lt : mantissa < limit
  scale_le : scale ≤ maxScale
  deriving DecidableEq, Repr

end Decimal

/-- An exact number in decimal digits. -/
structure Decimal extends Decimal.Magnitude where
  negative : Bool
  mantissa_ne_zero : negative = true → mantissa ≠ 0
  deriving DecidableEq, Repr

namespace Decimal

/-- The decimal with the given sign, unless it is zero. -/
def signed (negative : Bool) (m : Magnitude) : Decimal :=
  ⟨m, negative && m.mantissa != 0, by simp⟩

/-- The decimal in digits: a sign if it is negative, and as many digits behind the point as its scale
says. -/
def display (d : Decimal) : String :=
  String.ofList ((if d.negative then ['-'] else []) ++ Text.placed d.mantissa d.scale)

/-! ## Reading digits behind the point -/

/-- The magnitude with one more digit behind the point, if there is room for it. -/
def Magnitude.append? (m : Magnitude) (digit : Nat) : Option Magnitude :=
  if h : m.scale < maxScale ∧ 10 * m.mantissa + digit < limit then
    some ⟨10 * m.mantissa + digit, m.scale + 1, h.2, h.1⟩
  else none

/-- The magnitude rounded by the digit behind its last one, a half upwards.  Where that needs a
mantissa of 97 bits, a digit behind the point is given up, and none is left to give up at scale
zero. -/
def Magnitude.round? (m : Magnitude) (digit : Nat) : Option Magnitude :=
  if digit < 5 then some m
  else if h : m.mantissa + 1 < limit then some ⟨m.mantissa + 1, m.scale, h, m.scale_le⟩
  else if m.scale = 0 then none
  else some ⟨(limit + 4) / 10, m.scale - 1, by decide, Nat.le_trans (Nat.sub_le _ _) m.scale_le⟩

/-- Mantissas below this number are worked on in a single word of 64 bits, with room for one more
digit. -/
def wordLimit : Nat := Nat.pow 2 64 / 10 - 255

/-- Whether an underscore ends a fraction: behind the last place there is, where it stands for the
digit to round by and counts as zero.  That is so of a magnitude in a single word only; behind any
other the underscore is passed over. -/
def Magnitude.endsAt (before : Magnitude) (scale : Nat) (rest : List Char) : Bool :=
  decide (scale = maxScale) && decide (before.mantissa < wordLimit) && rest.head? == some '_'

/-- The magnitude with a fraction of digits and underscores behind it.  The first digit without room
rounds what is there, and what stands behind that digit counts for nothing. -/
def Magnitude.absorb? (m : Magnitude) : List Char → Option Magnitude
  | [] => some m
  | c :: rest =>
    if c = '_' then m.absorb? rest
    else
      match m.append? (Text.valueOf [c]) with
      | some longer => if m.endsAt longer.scale rest then some longer else longer.absorb? rest
      | none => m.round? (Text.valueOf [c])

/-- A fraction whose next two characters are no underscores goes on by its digit. -/
theorem Magnitude.absorb?_cons {m longer : Magnitude} {c : Char} {rest : List Char} (hc : c ≠ '_')
    (hrest : rest.head? ≠ some '_') (h : m.append? (Text.valueOf [c]) = some longer) :
    m.absorb? (c :: rest) = longer.absorb? rest := by
  have hends : m.endsAt longer.scale rest = false := by
    simp [endsAt, hrest]
  rw [absorb?, if_neg hc, h]
  simp [hends]

/-- The magnitude of a whole number, if it is below the limit. -/
def Magnitude.ofNat? (n : Nat) : Option Magnitude :=
  if h : n < limit then some ⟨n, 0, h, Nat.zero_le _⟩ else none

end Decimal

end ColumnFormula
