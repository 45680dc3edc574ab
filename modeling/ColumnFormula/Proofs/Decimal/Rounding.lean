import ColumnFormula.Decimal.Basic
import ColumnFormula.Proofs.Text.Numeral
import Mathlib.Algebra.Order.Field.Rat
import Mathlib.Tactic.FieldSimp
import Mathlib.Tactic.Linarith
import Mathlib.Tactic.Positivity
import Mathlib.Tactic.Ring

/-!
# Reading a fraction within bounds

What is lost when a fraction has more digits than a magnitude has room for.  Reading takes digits up
one by one until one does not fit, rounds by that one and drops the rest (`absorb?_cases`).  Up to the
first digit without room the number stays the same, if the digits to come are counted in
(`followedBy`).  So all that is lost is lost by one rounding, which is by at most half a unit of the last
place, also where it carries into a 97th bit and a place has to be given up.
-/

namespace ColumnFormula

/-! ## What digits behind a point stand for -/

namespace Text

/-- The number that digits stand for that have a point in front of them. -/
def fractionOf (ds : List Char) : ℚ :=
  valueOf ds / 10 ^ ds.length

@[simp] theorem fractionOf_nil : fractionOf [] = 0 := by
  rw [fractionOf, valueOf_nil, Nat.cast_zero, zero_div]

theorem fractionOf_append (front back : List Char) :
    fractionOf (front ++ back) = (valueOf front + fractionOf back) / 10 ^ front.length := by
  rw [fractionOf, fractionOf, valueOf_append, List.length_append, pow_add]
  push_cast
  field_simp

theorem fractionOf_cons (c : Char) (rest : List Char) :
    fractionOf (c :: rest) = (valueOf [c] + fractionOf rest) / 10 := by
  rw [show c :: rest = [c] ++ rest from rfl, fractionOf_append, List.length_singleton, pow_one]

theorem fractionOf_nonneg (ds : List Char) : 0 ≤ fractionOf ds := by
  rw [fractionOf]
  positivity

theorem fractionOf_lt_one {ds : List Char} (h : ∀ c ∈ ds, c.isDigit = true) : fractionOf ds < 1 := by
  rw [fractionOf, div_lt_one (by positivity)]
  exact_mod_cast valueOf_lt h

end Text

namespace Decimal.Magnitude

open Text

/-! ## What magnitudes stand for -/

@[ext] theorem ext {m m' : Magnitude} (hmantissa : m.mantissa = m'.mantissa) (hscale : m.scale = m'.scale) :
    m = m' := by
  cases m
  cases m'
  exact (mk.injEq _ _ _ _ _ _ _ _).mpr ⟨hmantissa, hscale⟩

/-- The number that a magnitude stands for. -/
def toRat (m : Magnitude) : ℚ :=
  m.mantissa / 10 ^ m.scale

theorem toRat_nonneg (m : Magnitude) : 0 ≤ m.toRat := by
  rw [toRat]
  positivity

theorem toRat_le_mantissa (m : Magnitude) : m.toRat ≤ m.mantissa := by
  rw [toRat]
  exact div_le_self (Nat.cast_nonneg _) (one_le_pow₀ (by norm_num))

/-- The number that a magnitude stands for with digits behind its last one. -/
def followedBy (m : Magnitude) (ds : List Char) : ℚ :=
  (m.mantissa + fractionOf ds) / 10 ^ m.scale

theorem followedBy_nil (m : Magnitude) : m.followedBy [] = m.toRat := by
  rw [followedBy, fractionOf_nil, add_zero, toRat]

theorem followedBy_mul_pow (m : Magnitude) (ds : List Char) :
    m.followedBy ds * 10 ^ m.scale = m.mantissa + fractionOf ds := by
  rw [followedBy]
  field_simp

/-- The magnitude differs from a number by at most half a unit of its last place. -/
def IsNear (m : Magnitude) (v : ℚ) : Prop :=
  |m.toRat - v| ≤ 1 / 2 / 10 ^ m.scale

theorem isNear_toRat (m : Magnitude) : m.IsNear m.toRat := by
  rw [IsNear, sub_self, abs_zero]
  positivity

theorem isNear_iff {m : Magnitude} {v : ℚ} :
    m.IsNear v ↔ |m.mantissa - v * 10 ^ m.scale| ≤ 1 / 2 := by
  have hpos : (0 : ℚ) < 10 ^ m.scale := by positivity
  have hscaled : m.toRat - v = (m.mantissa - v * 10 ^ m.scale) / 10 ^ m.scale := by
    rw [toRat]
    field_simp
  rw [IsNear, hscaled, abs_div, abs_of_pos hpos, div_le_div_iff_of_pos_right hpos]

/-! ## One digit more -/

theorem append?_eq_some {m longer : Magnitude} {digit : Nat} (h : m.append? digit = some longer) :
    longer.mantissa = 10 * m.mantissa + digit ∧ longer.scale = m.scale + 1 := by
  rw [append?] at h
  split at h
  · obtain rfl := Option.some.inj h
    exact ⟨rfl, rfl⟩
  · cases h

theorem append?_eq_none_iff {m : Magnitude} {digit : Nat} :
    m.append? digit = none ↔ m.scale = maxScale ∨ limit ≤ 10 * m.mantissa + digit := by
  have hle := m.scale_le
  rw [append?]
  split
  · simp only [reduceCtorEq, false_iff]
    omega
  · simp only [true_iff]
    omega

/-- Rounding leaves the magnitude, or adds one to its mantissa, or, where that would take a 97th bit,
gives up a place. -/
theorem round?_eq_some {m r : Magnitude} {digit : Nat} (h : m.round? digit = some r) :
    (digit < 5 ∧ r = m) ∨ (5 ≤ digit ∧ r.mantissa = m.mantissa + 1 ∧ r.scale = m.scale) ∨
      (5 ≤ digit ∧ m.mantissa + 1 = limit ∧ 10 * r.mantissa = m.mantissa + 5 ∧
        r.scale + 1 = m.scale) := by
  rw [round?] at h
  split at h
  · exact Or.inl ⟨‹_›, (Option.some.inj h).symm⟩
  · rename_i hdigit
    have hfive : 5 ≤ digit := Nat.le_of_not_lt hdigit
    split at h
    · obtain rfl := Option.some.inj h
      exact Or.inr (Or.inl ⟨hfive, rfl, rfl⟩)
    · rename_i hfull
      have hlimit : m.mantissa + 1 = limit := Nat.le_antisymm m.mantissa_lt (Nat.le_of_not_lt hfull)
      split at h
      · cases h
      · rename_i hscale
        obtain rfl := Option.some.inj h
        -- Ten does not divide the limit, but it divides the limit and four.
        have hten : 10 * ((limit + 4) / 10) = limit + 4 := by decide
        refine Or.inr (Or.inr ⟨hfive, hlimit, ?_, Nat.succ_pred_eq_of_ne_zero hscale⟩)
        rw [hten, ← hlimit]

theorem round?_eq_none_iff {m : Magnitude} {digit : Nat} :
    m.round? digit = none ↔ 5 ≤ digit ∧ m.mantissa + 1 = limit ∧ m.scale = 0 := by
  have hlt := m.mantissa_lt
  rw [round?]
  repeat' split
  all_goals
    simp only [true_iff, reduceCtorEq, false_iff]
    omega

/-! ## A whole fraction -/

/-- The longer magnitude is the other one with digits behind its last one. -/
structure Extends (m : Magnitude) (front : List Char) (longer : Magnitude) : Prop where
  mantissa : longer.mantissa = m.mantissa * 10 ^ front.length + valueOf front
  scale : longer.scale = m.scale + front.length

theorem extends_nil_iff {m longer : Magnitude} : m.Extends [] longer ↔ longer = m := by
  constructor
  · rintro ⟨hmantissa, hscale⟩
    rw [List.length_nil, Nat.pow_zero, Nat.mul_one, valueOf_nil] at hmantissa
    exact ext hmantissa hscale
  · rintro rfl
    exact ⟨by simp, rfl⟩

theorem Extends.cons {m next longer : Magnitude} {c : Char} {front : List Char}
    (h : m.append? (valueOf [c]) = some next) (hmore : next.Extends front longer) :
    m.Extends (c :: front) longer := by
  obtain ⟨hmantissa, hscale⟩ := append?_eq_some h
  refine ⟨?_, ?_⟩
  · rw [hmore.mantissa, hmantissa, valueOf_cons c front, List.length_cons, Nat.pow_succ]
    ring
  · rw [hmore.scale, hscale, List.length_cons]
    omega

/-- Digits that have been taken up and digits that are still to come count the same. -/
theorem Extends.followedBy_eq {m longer : Magnitude} {front : List Char}
    (h : m.Extends front longer) (rest : List Char) :
    m.followedBy (front ++ rest) = longer.followedBy rest := by
  rw [followedBy, followedBy, fractionOf_append, h.mantissa, h.scale, pow_add]
  push_cast
  field_simp
  ring

/-- Reading a fraction takes up the digits that there is room for.  If these are not all, the first
one that is left over rounds what has been read. -/
theorem absorb?_cases {fraction : List Char} (h : ∀ c ∈ fraction, c.isDigit = true) (m : Magnitude) :
    ∃ front rest longer, fraction = front ++ rest ∧ m.Extends front longer ∧
      (rest = [] ∧ m.absorb? fraction = some longer ∨
        ∃ c more, rest = c :: more ∧ longer.append? (valueOf [c]) = none ∧
          m.absorb? fraction = longer.round? (valueOf [c])) := by
  induction fraction generalizing m with
  | nil => exact ⟨[], [], m, rfl, extends_nil_iff.2 rfl, Or.inl ⟨rfl, rfl⟩⟩
  | cons c fraction ih =>
    obtain ⟨hc, hfraction⟩ := List.forall_mem_cons.1 h
    have hdigit : ∀ d : Char, d.isDigit = true → d ≠ '_' := by
      rintro d hd rfl
      exact absurd hd (by decide)
    cases happend : m.append? (valueOf [c]) with
    | none =>
      refine ⟨[], c :: fraction, m, rfl, extends_nil_iff.2 rfl, Or.inr ⟨c, fraction, rfl, happend, ?_⟩⟩
      rw [absorb?, if_neg (hdigit c hc), happend]
    | some next =>
      have hhead : fraction.head? ≠ some '_' := fun hhead =>
        hdigit '_' (hfraction '_' (List.mem_of_mem_head? hhead)) rfl
      obtain ⟨front, rest, longer, rfl, hextends, hends⟩ := ih hfraction next
      refine ⟨c :: front, rest, longer, rfl, hextends.cons happend, ?_⟩
      rwa [absorb?_cons (hdigit c hc) hhead happend]

/-! ## How near the result is -/

/-- Rounding by the first of the digits that are left over is off by at most half a unit of the last
place. -/
theorem isNear_of_round? {m r : Magnitude} {c : Char} {rest : List Char}
    (hdigits : ∀ d ∈ c :: rest, d.isDigit = true) (h : m.round? (valueOf [c]) = some r) :
    r.IsNear (m.followedBy (c :: rest)) := by
  have hnonneg := fractionOf_nonneg (c :: rest)
  have hone := fractionOf_lt_one hdigits
  have htenths := fractionOf_cons c rest
  have hrest := fractionOf_nonneg rest
  have hrest' := fractionOf_lt_one (List.forall_mem_cons.1 hdigits).2
  have hscaled := m.followedBy_mul_pow (c :: rest)
  rw [isNear_iff, abs_le]
  rcases round?_eq_some h with ⟨hdigit, rfl⟩ | ⟨hdigit, hmantissa, hscale⟩ |
    ⟨hdigit, _, hmantissa, hscale⟩
  · have hfour : (valueOf [c] : ℚ) ≤ 4 := by exact_mod_cast Nat.le_of_lt_succ hdigit
    rw [hscaled]
    constructor <;> linarith
  · have hfive : (5 : ℚ) ≤ valueOf [c] := by exact_mod_cast hdigit
    rw [hscale, hscaled, hmantissa]
    push_cast
    constructor <;> linarith
  · -- A place is given up: what was one unit of the last place is a tenth of one now.
    have hplace : m.followedBy (c :: rest) * 10 ^ r.scale =
        (m.mantissa + fractionOf (c :: rest)) / 10 := by
      rw [← hscaled, ← hscale, pow_succ]
      ring
    have hcarry : (10 * r.mantissa : ℚ) = m.mantissa + 5 := by exact_mod_cast hmantissa
    rw [hplace]
    constructor <;> linarith

/-- A fraction is read to within half a unit of the last place. -/
theorem isNear_of_absorb? {m r : Magnitude} {fraction : List Char}
    (hdigits : ∀ c ∈ fraction, c.isDigit = true) (h : m.absorb? fraction = some r) :
    r.IsNear (m.followedBy fraction) := by
  obtain ⟨front, rest, longer, rfl, hextends, hends⟩ := absorb?_cases hdigits m
  rw [hextends.followedBy_eq]
  rcases hends with ⟨rfl, hall⟩ | ⟨c, more, rfl, _, hround⟩
  · obtain rfl : longer = r := Option.some.inj (hall.symm.trans h)
    rw [followedBy_nil]
    exact longer.isNear_toRat
  · rw [hround] at h
    exact isNear_of_round? (List.forall_mem_append.1 hdigits).2 h

/-! ## When there is a result -/

/-- There is no room for a digit behind the greatest mantissa. -/
theorem Extends.eq_nil {m longer : Magnitude} {front : List Char} (h : m.Extends front longer)
    (hfull : m.mantissa + 1 = limit) : front = [] := by
  cases front with
  | nil => rfl
  | cons c front =>
    have hten : m.mantissa * 10 ≤ m.mantissa * 10 ^ (c :: front).length :=
      Nat.mul_le_mul_left _ (Nat.le_pow (Nat.succ_pos front.length))
    have hmantissa := h.mantissa
    have hlt := longer.mantissa_lt
    have hlimit : 1 < limit := by decide
    omega

/-- Behind a whole number a fraction is read unless that is the greatest one and has to be rounded
up. -/
theorem absorb?_eq_none_iff {m : Magnitude} (hscale : m.scale = 0) {fraction : List Char}
    (hdigits : ∀ c ∈ fraction, c.isDigit = true) :
    m.absorb? fraction = none ↔
      m.mantissa + 1 = limit ∧ ∃ c ∈ fraction.head?, 5 ≤ valueOf [c] := by
  obtain ⟨front, rest, longer, rfl, hextends, hends⟩ := absorb?_cases hdigits m
  constructor
  · intro hnone
    rcases hends with ⟨_, hall⟩ | ⟨c, more, rfl, _, hround⟩
    · rw [hall] at hnone
      cases hnone
    · rw [hround, round?_eq_none_iff] at hnone
      obtain ⟨hdigit, hfull, hzero⟩ := hnone
      have hlength : front.length = 0 := by
        have := hextends.scale
        omega
      obtain rfl := List.length_eq_zero_iff.1 hlength
      obtain rfl := extends_nil_iff.1 hextends
      exact ⟨hfull, c, rfl, hdigit⟩
  · rintro ⟨hfull, c, hc, hdigit⟩
    obtain rfl := hextends.eq_nil hfull
    obtain rfl := extends_nil_iff.1 hextends
    rcases hends with ⟨rfl, _⟩ | ⟨d, more, rfl, _, hround⟩
    · cases hc
    · obtain rfl : d = c := Option.some.inj hc
      rw [hround, round?_eq_none_iff]
      exact ⟨hdigit, hfull, hscale⟩

/-! ## When the result is exact -/

/-- A fraction that there is room for is taken up whole. -/
theorem exists_absorb?_of_fits {m : Magnitude} {fraction : List Char}
    (hdigits : ∀ c ∈ fraction, c.isDigit = true) (hscale : m.scale + fraction.length ≤ maxScale)
    (hlt : m.mantissa * 10 ^ fraction.length + valueOf fraction < limit) :
    ∃ r, m.absorb? fraction = some r ∧ m.Extends fraction r := by
  obtain ⟨front, rest, longer, rfl, hextends, hends⟩ := absorb?_cases hdigits m
  rcases hends with ⟨rfl, hall⟩ | ⟨c, more, rfl, happend, _⟩
  · rw [List.append_nil] at hall ⊢
    exact ⟨longer, hall, hextends⟩
  · -- The digit that is said not to fit does.
    exfalso
    have hmantissa := hextends.mantissa
    have hplaces := hextends.scale
    rw [List.length_append, List.length_cons] at hscale
    have hroom : limit ≤ 10 * longer.mantissa + valueOf [c] := by
      rcases append?_eq_none_iff.1 happend with hfull | hroom
      · omega
      · exact hroom
    have hwhole : m.mantissa * 10 ^ (front ++ c :: more).length + valueOf (front ++ c :: more) =
        (10 * longer.mantissa + valueOf [c]) * 10 ^ more.length + valueOf more := by
      rw [valueOf_append, valueOf_cons c more, hmantissa, List.length_append, List.length_cons]
      ring
    have hle : 10 * longer.mantissa + valueOf [c] ≤
        (10 * longer.mantissa + valueOf [c]) * 10 ^ more.length :=
      Nat.le_mul_of_pos_right _ (Nat.pow_pos (by decide))
    omega

/-- A number with a digit that has no room is none that a magnitude stands for with more places: its
mantissa would reach the limit. -/
theorem scale_le_of_append? {m e : Magnitude} {c : Char} {rest : List Char}
    (h : m.append? (valueOf [c]) = none) (he : e.toRat = m.followedBy (c :: rest)) :
    e.scale ≤ m.scale := by
  by_contra hlt
  obtain ⟨k, hk⟩ := Nat.exists_eq_add_of_lt (Nat.lt_of_not_le hlt)
  have hroom : limit ≤ 10 * m.mantissa + valueOf [c] := by
    rcases append?_eq_none_iff.1 h with hfull | hroom
    · have := e.scale_le
      omega
    · exact hroom
  have hmantissa : (e.mantissa : ℚ) = (10 * m.mantissa + 10 * fractionOf (c :: rest)) * 10 ^ k := by
    rw [← mul_add, ← followedBy_mul_pow, ← he, toRat, hk, pow_succ, pow_add]
    field_simp
  have hdigit : (valueOf [c] : ℚ) ≤ 10 * fractionOf (c :: rest) := by
    have := fractionOf_nonneg rest
    rw [fractionOf_cons]
    linarith
  have hnonneg := fractionOf_nonneg (c :: rest)
  have hreach : ((10 * m.mantissa + valueOf [c] : ℕ) : ℚ) ≤ e.mantissa := by
    rw [hmantissa]
    push_cast
    calc (10 * m.mantissa + valueOf [c] : ℚ)
        ≤ 10 * m.mantissa + 10 * fractionOf (c :: rest) := by linarith
      _ ≤ (10 * m.mantissa + 10 * fractionOf (c :: rest)) * 10 ^ k :=
          le_mul_of_one_le_right (by positivity) (one_le_pow₀ (by norm_num))
  have hlimit : limit ≤ e.mantissa := hroom.trans (by exact_mod_cast hreach)
  exact absurd e.mantissa_lt (Nat.not_lt.2 hlimit)

/-- With no more places than there are in front of digits, a magnitude stands for the number with these
digits only if they are zeros: they are what a natural number has behind its point. -/
theorem fractionOf_eq_zero_of_scale_le {m e : Magnitude} {ds : List Char}
    (hdigits : ∀ d ∈ ds, d.isDigit = true) (he : e.toRat = m.followedBy ds)
    (hle : e.scale ≤ m.scale) : fractionOf ds = 0 := by
  obtain ⟨k, hk⟩ := Nat.exists_eq_add_of_le hle
  have hnonneg := fractionOf_nonneg ds
  have hone := fractionOf_lt_one hdigits
  have hwhole : ((e.mantissa * 10 ^ k : ℕ) : ℚ) = m.mantissa + fractionOf ds := by
    rw [← followedBy_mul_pow, ← he, toRat, hk, pow_add]
    push_cast
    field_simp
  have hlt : e.mantissa * 10 ^ k < m.mantissa + 1 := by
    have : ((e.mantissa * 10 ^ k : ℕ) : ℚ) < m.mantissa + 1 := by linarith
    exact_mod_cast this
  have hle' : ((e.mantissa * 10 ^ k : ℕ) : ℚ) ≤ m.mantissa := by
    exact_mod_cast Nat.le_of_lt_succ hlt
  linarith

/-- A fraction is read exactly if there is a magnitude that stands for the number. -/
theorem exists_absorb?_eq_iff {m : Magnitude} {fraction : List Char}
    (hdigits : ∀ c ∈ fraction, c.isDigit = true) :
    (∃ r, m.absorb? fraction = some r ∧ r.toRat = m.followedBy fraction) ↔
      ∃ e : Magnitude, e.toRat = m.followedBy fraction := by
  constructor
  · rintro ⟨r, _, hr⟩
    exact ⟨r, hr⟩
  · rintro ⟨e, he⟩
    obtain ⟨front, rest, longer, rfl, hextends, hends⟩ := absorb?_cases hdigits m
    rw [hextends.followedBy_eq] at he ⊢
    rcases hends with ⟨rfl, hall⟩ | ⟨c, more, rfl, happend, hround⟩
    · exact ⟨longer, hall, (followedBy_nil longer).symm⟩
    · have hmore := (List.forall_mem_append.1 hdigits).2
      have hzero := fractionOf_eq_zero_of_scale_le hmore he (scale_le_of_append? happend he)
      -- Only zeros are left over, and a zero rounds down.
      have hdigit : valueOf [c] = 0 := by
        have hnonneg := fractionOf_nonneg more
        have hfirst : (valueOf [c] : ℚ) ≤ 0 := by
          rw [fractionOf_cons] at hzero
          linarith
        exact_mod_cast le_antisymm hfirst (Nat.cast_nonneg _)
      refine ⟨longer, ?_, ?_⟩
      · rw [hround, hdigit]
        exact if_pos (by decide)
      · rw [followedBy, hzero, add_zero, toRat]

end Decimal.Magnitude

end ColumnFormula
