/-!
# Numerals

Numbers written in decimal digits, with a point if some of the digits are a fraction.  The pair of a
mantissa and a scale stands for the mantissa divided by ten to the scale, and `placed` is its one
written form: the digits of the mantissa with the point before the last `scale` of them and at least
one digit before the point.  Zeros at the end of a fraction are kept, so that the scale can be read
off the text.
-/

namespace ColumnFormula.Text

/-- The decimal digits of a number, without leading zeros. -/
def digits (n : Nat) : List Char :=
  Nat.toDigits 10 n

/-- The number that a run of decimal digits stands for. -/
def valueOf (ds : List Char) : Nat :=
  Nat.ofDigitChars 10 ds 0

/-- The digits of `m`, filled up with zeros in front to more than `scale` of them. -/
def padded (m scale : Nat) : List Char :=
  List.replicate (scale + 1 - (digits m).length) '0' ++ digits m

/-- The mantissa `m` with a point before its last `scale` digits; no point if there are none. -/
def placed (m scale : Nat) : List Char :=
  if scale = 0 then digits m
  else
    let ds := padded m scale
    ds.take (ds.length - scale) ++ '.' :: ds.drop (ds.length - scale)

@[simp] theorem valueOf_digits (n : Nat) : valueOf (digits n) = n :=
  Nat.ofDigitChars_toDigits (by decide) (by decide)

example : placed 150 2 = "1.50".toList := by decide
example : placed 5 3 = "0.005".toList := by decide
example : placed 0 2 = "0.00".toList := by decide

end ColumnFormula.Text
