import ColumnFormula.Proofs.Decimal.Rounding
import ColumnFormula.Proofs.Scan.Stream
import ColumnFormula.Proofs.Scan.Written
import ColumnFormula.Token.Number

/-!
# Values of scanned numbers

A number that is scanned has digits and points in it, and stands for a rational number if there is one
point at most.  Its decimal is that number where a decimal can be, and the number rounded where none
can, as long as there is room for the whole part.
-/

namespace ColumnFormula

open Scan Text

/-! ## The parts of a number -/

namespace Text

/-- What stands in front of the first point. -/
def wholePart (text : List Char) : List Char :=
  text.takeWhile (· != '.')

/-- What stands behind the first point. -/
def fractionPart (text : List Char) : List Char :=
  (text.dropWhile (· != '.')).tail

/-- The number that digits with a point among them stand for. -/
def numberValue (text : List Char) : ℚ :=
  valueOf (wholePart text) + fractionOf (fractionPart text)

theorem parts_of_not_mem {text : List Char} (h : '.' ∉ text) :
    wholePart text = text ∧ fractionPart text = [] := by
  have hdrop : text.dropWhile (· != '.') = [] := List.dropWhile_eq_nil_iff.2 (bne_of_not_mem h)
  exact ⟨takeWhile_bne_of_not_mem h, congrArg List.tail hdrop⟩

theorem parts_append {whole : List Char} (h : '.' ∉ whole) (fraction : List Char) :
    wholePart (whole ++ '.' :: fraction) = whole ∧
      fractionPart (whole ++ '.' :: fraction) = fraction :=
  ⟨takeWhile_bne_append h fraction, congrArg List.tail (dropWhile_bne_append h fraction)⟩

/-- A text has no point, or it is its parts with a point between them. -/
theorem parts_cases (text : List Char) :
    ('.' ∉ text ∧ wholePart text = text ∧ fractionPart text = []) ∨
      ('.' ∉ wholePart text ∧ text = wholePart text ++ '.' :: fractionPart text) := by
  by_cases hpoint : '.' ∈ text
  · obtain ⟨whole, fraction, rfl, hnot⟩ := List.eq_append_cons_of_mem hpoint
    obtain ⟨hwhole, hfraction⟩ := parts_append hnot fraction
    rw [hwhole, hfraction]
    exact Or.inr ⟨hnot, rfl⟩
  · exact Or.inl ⟨hpoint, parts_of_not_mem hpoint⟩

theorem count_point_le_one_iff (text : List Char) :
    text.count '.' ≤ 1 ↔ '.' ∉ fractionPart text := by
  rcases parts_cases text with ⟨hnot, _, hfraction⟩ | ⟨hnot, hsplit⟩
  · rw [hfraction, List.count_eq_zero_of_not_mem hnot]
    exact iff_of_true (Nat.zero_le 1) List.not_mem_nil
  · rw [hsplit, List.count_append, List.count_eq_zero_of_not_mem hnot, List.count_cons_self, ← hsplit,
      ← List.count_eq_zero]
    omega

/-- With one point at most the digits are those of the two parts. -/
theorem filter_ne_point {text : List Char} (h : '.' ∉ fractionPart text) :
    text.filter (· != '.') = wholePart text ++ fractionPart text := by
  have hkeep : ∀ {part : List Char}, '.' ∉ part → part.filter (· != '.') = part := fun hpart =>
    List.filter_eq_self.2 (bne_of_not_mem hpart)
  rcases parts_cases text with ⟨hnot, hwhole, hfraction⟩ | ⟨hnot, hsplit⟩
  · rw [hwhole, hfraction, List.append_nil, hkeep hnot]
  · calc text.filter (· != '.')
        = (wholePart text ++ '.' :: fractionPart text).filter (· != '.') := by rw [← hsplit]
      _ = (wholePart text).filter (· != '.') ++ (fractionPart text).filter (· != '.') :=
          List.filter_append _ _
      _ = wholePart text ++ fractionPart text := by rw [hkeep hnot, hkeep h]

end Text

namespace Scan.NumberText

variable {text : List Char}

theorem isDigit_wholePart (h : NumberText text) : ∀ c ∈ wholePart text, c.isDigit = true := by
  intro c hc
  refine (h.isDigit_or_point c ((List.takeWhile_prefix _).subset hc)).resolve_right ?_
  rintro rfl
  exact absurd (List.mem_takeWhile_imp hc) (by decide)

theorem wholePart_ne_nil (h : NumberText text) : wholePart text ≠ [] := by
  obtain ⟨c, tail, rfl, hrole⟩ := h.eq_cons
  have hc : c ≠ '.' := by
    rintro rfl
    exact absurd hrole (by decide)
  simp [wholePart, hc]

theorem isDigit_fractionPart (h : NumberText text) (hpoints : text.count '.' ≤ 1) :
    ∀ c ∈ fractionPart text, c.isDigit = true := by
  intro c hc
  have hmem : c ∈ text := (List.dropWhile_suffix _).subset (List.mem_of_mem_tail hc)
  refine (h.isDigit_or_point c hmem).resolve_right ?_
  rintro rfl
  exact (count_point_le_one_iff text).1 hpoints hc

end Scan.NumberText

/-! ## Taking a number apart -/

namespace Decimal

namespace Literal

theorem ofSigned?_of_isDigit {c : Char} (h : c.isDigit = true) (rest : List Char) :
    ofSigned? (c :: rest) = ofUnsigned? false (c :: rest) := by
  rw [ofSigned?.eq_def]
  split
  · rename_i heq
    rw [(List.cons.inj heq).1] at h
    exact absurd h (by decide)
  · rename_i heq
    rw [(List.cons.inj heq).1] at h
    exact absurd h (by decide)
  · rfl

theorem isGrouped_of_isDigit {c : Char} (h : c.isDigit = true) : isGrouped c = true := by
  rw [isGrouped, h, Bool.true_or]

/-- Digits without a point are a whole number. -/
theorem ofUnsigned?_digits {negative : Bool} {whole : List Char}
    (hdigits : ∀ c ∈ whole, c.isDigit = true) (hne : whole ≠ []) :
    ofUnsigned? negative whole = some ⟨negative, whole, []⟩ := by
  have hgrouped : ∀ c ∈ whole, isGrouped c = true := fun c hc => isGrouped_of_isDigit (hdigits c hc)
  have hfilter : (whole.takeWhile isGrouped).filter (·.isDigit) = whole := by
    rw [List.takeWhile_eq_self_iff.2 hgrouped, List.filter_eq_self.2 hdigits]
  rw [ofUnsigned?, List.dropWhile_eq_nil_iff.2 hgrouped, hfilter]
  exact if_neg hne

/-- Digits in front of a point are the whole part, if there is no other point. -/
theorem ofUnsigned?_point {negative : Bool} {whole : List Char}
    (hdigits : ∀ c ∈ whole, c.isDigit = true) (hne : whole ≠ []) (fraction : List Char) :
    ofUnsigned? negative (whole ++ '.' :: fraction) =
      if fraction.all isGrouped then some ⟨negative, whole, fraction⟩ else none := by
  have hgrouped : ∀ c ∈ whole, isGrouped c = true := fun c hc => isGrouped_of_isDigit (hdigits c hc)
  have htake : (whole ++ '.' :: fraction).takeWhile isGrouped = whole := by
    rw [List.takeWhile_append_of_pos hgrouped, List.takeWhile_cons_of_neg (by decide),
      List.append_nil]
  have hdrop : (whole ++ '.' :: fraction).dropWhile isGrouped = '.' :: fraction := by
    rw [List.dropWhile_append_of_pos hgrouped, List.dropWhile_cons_of_neg (by decide)]
  rw [ofUnsigned?, htake, hdrop, List.filter_eq_self.2 hdigits]
  simp [hne]

/-- The parts of a scanned number with one point at most; with more of them it is no literal. -/
theorem ofChars?_of_numberText {text : List Char} (h : NumberText text) :
    ofChars? text =
      if text.count '.' ≤ 1 then some ⟨false, wholePart text, fractionPart text⟩ else none := by
  obtain ⟨c, tail, htext, hrole⟩ := h.eq_cons
  have hc := Role.of_eq_digit_iff.1 hrole
  have hgroups : groupsDigits text = true := by
    rw [groupsDigits, htext, List.takeWhile_cons_of_neg (by simp [hc])]
    rfl
  have hunsigned : ofChars? text = ofUnsigned? false text := by
    rw [ofChars?, if_pos hgroups, htext, ofSigned?_of_isDigit hc]
  have hwhole := h.isDigit_wholePart
  have hne := h.wholePart_ne_nil
  rw [hunsigned]
  rcases parts_cases text with ⟨hnot, hfront, hback⟩ | ⟨_, hsplit⟩
  · have hpoints : text.count '.' ≤ 1 := by
      rw [List.count_eq_zero_of_not_mem hnot]
      exact Nat.zero_le 1
    rw [if_pos hpoints, hback, hfront]
    rw [hfront] at hwhole hne
    exact ofUnsigned?_digits hwhole hne
  · have hall : (fractionPart text).all isGrouped = true ↔ text.count '.' ≤ 1 := by
      rw [List.all_eq_true]
      constructor
      · intro hgrouped
        rw [count_point_le_one_iff]
        exact fun hmem => absurd (hgrouped _ hmem) (by decide)
      · exact fun hpoints c hc => isGrouped_of_isDigit (h.isDigit_fractionPart hpoints c hc)
    calc ofUnsigned? false text
        = ofUnsigned? false (wholePart text ++ '.' :: fractionPart text) := by rw [← hsplit]
      _ = if (fractionPart text).all isGrouped then
            some ⟨false, wholePart text, fractionPart text⟩ else none :=
          ofUnsigned?_point hwhole hne _
      _ = _ := by simp only [hall]

end Literal

/-! ## The decimal of a number -/

namespace Magnitude

/-- The magnitude of a whole number. -/
def ofWhole (n : Nat) (h : n < limit) : Magnitude :=
  ⟨n, 0, h, Nat.zero_le _⟩

theorem ofNat?_eq_some {n : Nat} (h : n < limit) : ofNat? n = some (ofWhole n h) :=
  dif_pos h

/-- The whole part of a text with its fraction behind it. -/
theorem followedBy_ofWhole {text : List Char} (h : valueOf (wholePart text) < limit) :
    (ofWhole _ h).followedBy (fractionPart text) = numberValue text := by
  rw [followedBy, numberValue]
  exact div_one _

end Magnitude

/-- The number that a decimal stands for. -/
def toRat (d : Decimal) : ℚ :=
  if d.negative then -d.toMagnitude.toRat else d.toMagnitude.toRat

theorem toRat_of_not_negative {d : Decimal} (h : d.negative = false) :
    d.toRat = d.toMagnitude.toRat :=
  if_neg (Bool.eq_false_iff.1 h)

/-- A sign is not needed for a number that is not below zero. -/
theorem toMagnitude_toRat_of_nonneg {d : Decimal} (h : 0 ≤ d.toRat) :
    d.toMagnitude.toRat = d.toRat := by
  cases hnegative : d.negative with
  | false => exact (toRat_of_not_negative hnegative).symm
  | true =>
    have hopposite : d.toRat = -d.toMagnitude.toRat := if_pos hnegative
    have hnonneg := d.toMagnitude.toRat_nonneg
    linarith

/-- A scanned number has a decimal if it has one point at most and there is room for its whole part,
also where the first digit behind the point rounds that up. -/
structure Admits (text : List Char) : Prop where
  points : text.count '.' ≤ 1
  whole_lt : valueOf (wholePart text) < 2 ^ 96
  rounded_lt : ¬ (valueOf (wholePart text) = 2 ^ 96 - 1 ∧
    ∃ c ∈ (fractionPart text).head?, 5 ≤ valueOf [c])

/-- The decimal is what a scanned number is read as: the number rounded, and the number itself with
all of its places if there is room for all of its digits. -/
structure IsReadingOf (d : Decimal) (text : List Char) : Prop where
  mantissa_lt : d.mantissa < 2 ^ 96
  scale_le : d.scale ≤ 28
  not_negative : d.negative = false
  near : |d.toRat - numberValue text| ≤ 1 / 2 / 10 ^ d.scale
  exact_of_room : (fractionPart text).length ≤ 28 → valueOf (text.filter (· != '.')) < 2 ^ 96 →
    d.toRat = numberValue text ∧ d.scale = (fractionPart text).length

section NumberText

variable {text : String} (h : NumberText text.toList)
include h

/-- A scanned number is read as its whole part with the fraction behind it. -/
theorem ofText?_eq (hpoints : text.toList.count '.' ≤ 1)
    (hwhole : valueOf (wholePart text.toList) < limit) :
    ofText? text =
      ((Magnitude.ofWhole _ hwhole).absorb? (fractionPart text.toList)).map (signed false) := by
  rw [ofText?, Literal.ofChars?_of_numberText h, if_pos hpoints]
  show Literal.value? _ = _
  rw [Literal.value?, Magnitude.ofNat?_eq_some hwhole]
  rfl

/-- What has a decimal has one point at most and a whole part that there is room for. -/
theorem points_and_whole_lt {d : Decimal} (hd : ofText? text = some d) :
    text.toList.count '.' ≤ 1 ∧ valueOf (wholePart text.toList) < limit := by
  rw [ofText?, Literal.ofChars?_of_numberText h] at hd
  split at hd
  · rename_i hpoints
    refine ⟨hpoints, Nat.lt_of_not_le fun hle => ?_⟩
    have hnone : Magnitude.ofNat? (valueOf (wholePart text.toList)) = none :=
      dif_neg (Nat.not_lt.2 hle)
    replace hd : Literal.value? _ = some d := hd
    rw [Literal.value?, hnone] at hd
    cases hd
  · cases hd

theorem isSome_ofText?_iff : (ofText? text).isSome ↔ Admits text.toList := by
  constructor
  · intro hsome
    obtain ⟨d, hd⟩ := Option.isSome_iff_exists.1 hsome
    obtain ⟨hpoints, hwhole⟩ := points_and_whole_lt h hd
    refine ⟨hpoints, hwhole, ?_⟩
    rintro ⟨hfull, hround⟩
    have hlimit : (Magnitude.ofWhole _ hwhole).mantissa + 1 = limit := congrArg (· + 1) hfull
    have hnone := (Magnitude.absorb?_eq_none_iff rfl (h.isDigit_fractionPart hpoints)).2
      ⟨hlimit, hround⟩
    rw [ofText?_eq h hpoints hwhole, hnone] at hsome
    cases hsome
  · rintro ⟨hpoints, hwhole, hround⟩
    rw [ofText?_eq h hpoints hwhole, Option.isSome_map, Option.isSome_iff_ne_none, Ne,
      Magnitude.absorb?_eq_none_iff rfl (h.isDigit_fractionPart hpoints)]
    rintro ⟨hfull, hdigit⟩
    exact hround ⟨Nat.eq_sub_of_add_eq hfull, hdigit⟩

/-- A scanned number with room for all of its digits is read as them. -/
theorem exists_ofText?_of_fits (hpoints : text.toList.count '.' ≤ 1)
    (hlength : (fractionPart text.toList).length ≤ maxScale)
    (hlt : valueOf (text.toList.filter (· != '.')) < limit) :
    ∃ r : Magnitude, ofText? text = some (signed false r) ∧
      r.mantissa = valueOf (text.toList.filter (· != '.')) ∧
      r.scale = (fractionPart text.toList).length ∧ r.toRat = numberValue text.toList := by
  rw [filter_ne_point ((count_point_le_one_iff _).1 hpoints), valueOf_append] at hlt ⊢
  have hwhole : valueOf (wholePart text.toList) < limit :=
    calc valueOf (wholePart text.toList)
        ≤ valueOf (wholePart text.toList) * 10 ^ (fractionPart text.toList).length :=
          Nat.le_mul_of_pos_right _ (Nat.pow_pos (by decide))
      _ ≤ _ := Nat.le_add_right _ _
      _ < limit := hlt
  have hroom : 0 + (fractionPart text.toList).length ≤ maxScale := by rwa [Nat.zero_add]
  obtain ⟨r, hr, hextends⟩ := (Magnitude.ofWhole _ hwhole).exists_absorb?_of_fits
    (h.isDigit_fractionPart hpoints) hroom hlt
  have hread : ofText? text = some (signed false r) := by
    rw [ofText?_eq h hpoints hwhole, hr]
    rfl
  refine ⟨r, hread, hextends.mantissa, hextends.scale.trans (Nat.zero_add _), ?_⟩
  rw [← Magnitude.followedBy_nil, ← hextends.followedBy_eq, List.append_nil,
    Magnitude.followedBy_ofWhole]

theorem isReadingOf_of_ofText? {d : Decimal} (hd : ofText? text = some d) :
    d.IsReadingOf text.toList := by
  obtain ⟨hpoints, hwhole⟩ := points_and_whole_lt h hd
  have hread := hd
  rw [ofText?_eq h hpoints hwhole] at hread
  obtain ⟨r, hr, rfl⟩ := Option.map_eq_some_iff.1 hread
  refine ⟨r.mantissa_lt, r.scale_le, rfl, ?_, ?_⟩
  · rw [toRat_of_not_negative rfl, ← Magnitude.followedBy_ofWhole hwhole]
    exact Magnitude.isNear_of_absorb? (h.isDigit_fractionPart hpoints) hr
  · intro hlength hlt
    obtain ⟨r', hr', _, hplaces, hvalue⟩ := exists_ofText?_of_fits h hpoints hlength hlt
    rw [hd] at hr'
    rw [Option.some.inj hr']
    exact ⟨hvalue, hplaces⟩

/-- A scanned number is read as itself if any decimal stands for it. -/
theorem exists_ofText?_eq_iff :
    (∃ d, ofText? text = some d ∧ d.toRat = numberValue text.toList) ↔
      text.toList.count '.' ≤ 1 ∧ ∃ e : Decimal, e.toRat = numberValue text.toList := by
  constructor
  · rintro ⟨d, hd, hvalue⟩
    exact ⟨(points_and_whole_lt h hd).1, d, hvalue⟩
  · rintro ⟨hpoints, e, he⟩
    have hfraction := fractionOf_nonneg (fractionPart text.toList)
    have hnonneg : 0 ≤ numberValue text.toList := add_nonneg (Nat.cast_nonneg _) hfraction
    rw [← toMagnitude_toRat_of_nonneg (he ▸ hnonneg)] at he
    have hwhole : valueOf (wholePart text.toList) < limit := by
      have hle : (valueOf (wholePart text.toList) : ℚ) ≤ e.mantissa := by
        calc (valueOf (wholePart text.toList) : ℚ)
            ≤ numberValue text.toList := le_add_of_nonneg_right hfraction
          _ = e.toMagnitude.toRat := he.symm
          _ ≤ e.mantissa := e.toMagnitude.toRat_le_mantissa
      exact Nat.lt_of_le_of_lt (by exact_mod_cast hle) e.mantissa_lt
    rw [← Magnitude.followedBy_ofWhole hwhole] at he ⊢
    obtain ⟨r, hr, hexact⟩ :=
      (Magnitude.exists_absorb?_eq_iff (h.isDigit_fractionPart hpoints)).2 ⟨_, he⟩
    refine ⟨signed false r, ?_, hexact⟩
    rw [ofText?_eq h hpoints hwhole, hr]
    rfl

end NumberText

end Decimal

/-! ## The numbers of a scan -/

/-- A number of a scan carries its text, and has the decimal that the text is read as. -/
theorem Token.exists_numberText {expression : String} {offset : Nat} {t : Token}
    (ht : t ∈ (tokenize expression offset).tokens) (hkind : t.kind = .number) :
    ∃ text, t.text? = some text ∧ t.decimal? = Decimal.ofText? text ∧ NumberText text.toList := by
  have hallows := allows_of_mem_tokenize t ht
  rw [hkind] at hallows
  obtain ⟨text, hvalue, hnumber⟩ := hallows
  have htext : t.text? = some text := by rw [text?, hvalue]
  refine ⟨text, htext, ?_, hnumber⟩
  rw [decimal?, if_pos hkind, htext]
  rfl

/-- Which numbers of a scan have a decimal, and how near it is to the number. -/
theorem tokenize_decimals {expression : String} {offset : Nat} {t : Token}
    (ht : t ∈ (tokenize expression offset).tokens) (hkind : t.kind = .number) :
    ∃ text, t.text? = some text ∧ (t.decimal?.isSome ↔ Decimal.Admits text.toList) ∧
      ∀ d, t.decimal? = some d → d.IsReadingOf text.toList := by
  obtain ⟨text, htext, hdecimal, hnumber⟩ := Token.exists_numberText ht hkind
  rw [hdecimal]
  exact ⟨text, htext, Decimal.isSome_ofText?_iff hnumber,
    fun d hd => Decimal.isReadingOf_of_ofText? hnumber hd⟩

/-- A number that carries into a 97th bit is rounded in the last place but one. -/
theorem tokenize_decimals_carry :
    let number := "7.92281625142643375935439503355"
    ∃ d : Decimal, (Token.ofText .number number).decimal? = some d ∧
      d.display = "7.922816251426433759354395034" ∧ d.IsReadingOf number.toList := by
  intro number
  have htokens : (tokenize number 0).tokens = [.ofText .number number, .endOfInput] := by
    decide +kernel
  have hmem : Token.ofText .number number ∈ (tokenize number 0).tokens :=
    htokens ▸ List.mem_cons_self
  have hdecimal : (Token.ofText .number number).decimal? =
      some ⟨⟨7922816251426433759354395034, 27, by decide, by decide⟩, false, nofun⟩ := by
    decide +kernel
  obtain ⟨text, htext, _, hreading⟩ := tokenize_decimals hmem rfl
  obtain rfl : number = text := Option.some.inj htext
  exact ⟨_, hdecimal, by decide +kernel, hreading _ hdecimal⟩

/-- A number of a scan with one point at most is given its decimal exactly if there is any decimal for
it. -/
theorem tokenize_decimals_exact {expression : String} {offset : Nat} {t : Token}
    (ht : t ∈ (tokenize expression offset).tokens) (hkind : t.kind = .number) :
    ∃ text, t.text? = some text ∧
      ((∃ d, t.decimal? = some d ∧ d.toRat = numberValue text.toList) ↔
        text.toList.count '.' ≤ 1 ∧ ∃ e : Decimal, e.toRat = numberValue text.toList) := by
  obtain ⟨text, htext, hdecimal, hnumber⟩ := Token.exists_numberText ht hkind
  rw [hdecimal]
  exact ⟨text, htext, Decimal.exists_ofText?_eq_iff hnumber⟩

/-- A zero behind the last place there is room for takes nothing away. -/
theorem tokenize_decimals_exact_zero :
    let number := "7.92281625142643375935439503350"
    ∃ d, (Token.ofText .number number).decimal? = some d ∧ d.toRat = numberValue number.toList := by
  intro number
  have htokens : (tokenize number 0).tokens = [.ofText .number number, .endOfInput] := by
    decide +kernel
  have hmem : Token.ofText .number number ∈ (tokenize number 0).tokens :=
    htokens ▸ List.mem_cons_self
  obtain ⟨text, htext, hexact⟩ := tokenize_decimals_exact hmem rfl
  obtain rfl : number = text := Option.some.inj htext
  refine hexact.2 ⟨by decide +kernel, ?_⟩
  exact ⟨⟨⟨79228162514264337593543950335, 28, by decide, by decide⟩, false, nofun⟩, by decide +kernel⟩

/-- What no decimal stands for is rounded, and not refused. -/
theorem tokenize_decimals_rounded :
    let number := "0.00000000000000000000000000005"
    (tokenize number 0).tokens = [.ofText .number number, .endOfInput] ∧
      ∃ d, (Token.ofText .number number).decimal? = some d ∧ d.toRat ≠ numberValue number.toList := by
  intro number
  have hdecimal : (Token.ofText .number number).decimal? =
      some ⟨⟨1, 28, by decide, by decide⟩, false, nofun⟩ := by
    decide +kernel
  exact ⟨by decide +kernel, _, hdecimal, by decide +kernel⟩

end ColumnFormula
