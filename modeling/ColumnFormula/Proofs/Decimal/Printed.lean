import ColumnFormula.Proofs.Decimal.Number

/-!
# Decimals that are printed and scanned again

A decimal without a sign is printed as a number: digits, and a point with digits behind it if it has a
scale.  Reading takes up all of these digits, for with the last of them there is the mantissa itself,
and with those in front of it something smaller.  So nothing is rounded and the scale is kept.  The sign
of a negative decimal is an operator to a scan.
-/

namespace ColumnFormula

open Scan Text

/-! ## Digits with a point are a number -/

namespace Scan.NumberText

theorem prepend {ds rest : List Char} (hdigits : ∀ c ∈ ds, c.isDigit = true) (h : NumberText rest) :
    NumberText (ds ++ rest) := by
  induction ds with
  | nil => exact h
  | cons c ds ih =>
    obtain ⟨hc, hds⟩ := List.forall_mem_cons.1 hdigits
    exact .digits hc (ih hds)

/-- Behind digits that are there anything may stand that may stand behind the last one. -/
theorem of_last {ds rest : List Char} (hdigits : ∀ c ∈ ds, c.isDigit = true) (hne : ds ≠ [])
    (h : ∀ c, c.isDigit = true → NumberText (c :: rest)) : NumberText (ds ++ rest) := by
  obtain ⟨front, last, rfl⟩ := (List.eq_nil_or_concat' ds).resolve_left hne
  obtain ⟨hfront, hlast⟩ := List.forall_mem_append.1 hdigits
  rw [List.append_assoc]
  exact prepend hfront (h last (hlast last List.mem_cons_self))

theorem of_digits {ds : List Char} (hdigits : ∀ c ∈ ds, c.isDigit = true) (hne : ds ≠ []) :
    NumberText ds := by
  rw [← List.append_nil ds]
  exact of_last hdigits hne fun c hc => .digit hc

theorem of_point {whole fraction : List Char} (hwhole : ∀ c ∈ whole, c.isDigit = true)
    (hne : whole ≠ []) (hfraction : ∀ c ∈ fraction, c.isDigit = true) (hne' : fraction ≠ []) :
    NumberText (whole ++ '.' :: fraction) :=
  of_last hwhole hne fun _ hc => .point hc (of_digits hfraction hne')

end Scan.NumberText

/-! ## The parts of a printed decimal -/

namespace Text

/-- A written mantissa is a number with all of its digits and as many of them behind the point as the
scale says. -/
theorem parts_placed (m scale : Nat) :
    NumberText (placed m scale) ∧ (placed m scale).count '.' ≤ 1 ∧
      (fractionPart (placed m scale)).length = scale ∧
      valueOf ((placed m scale).filter (· != '.')) = m := by
  obtain ⟨whole, fraction, hwhole, hfraction, hlength, hvalue, hplaced⟩ := exists_placed m scale
  have hpoint : ∀ {ds : List Char}, (∀ c ∈ ds, c.isDigit = true) → '.' ∉ ds := fun hds hmem =>
    absurd (hds '.' hmem) (by decide)
  have hparts : NumberText (placed m scale) ∧ wholePart (placed m scale) = whole ∧
      fractionPart (placed m scale) = fraction := by
    rw [hplaced]
    split
    · rename_i hscale
      obtain rfl := List.length_eq_zero_iff.1 (hlength.trans hscale)
      rw [List.append_nil]
      exact ⟨.of_digits hwhole.isDigit hwhole.ne_nil, parts_of_not_mem (hpoint hwhole.isDigit)⟩
    · rename_i hscale
      have hne : fraction ≠ [] := fun heq => hscale (hlength.symm.trans (congrArg List.length heq))
      exact ⟨.of_point hwhole.isDigit hwhole.ne_nil hfraction hne,
        parts_append (hpoint hwhole.isDigit) fraction⟩
  obtain ⟨hnumber, hfront, hback⟩ := hparts
  have hnot : '.' ∉ fractionPart (placed m scale) := hback ▸ hpoint hfraction
  rw [count_point_le_one_iff, filter_ne_point hnot, hfront, hback]
  exact ⟨hnumber, hpoint hfraction, hlength, hvalue⟩

end Text

namespace Decimal

variable {d : Decimal}

theorem toList_display (h : d.negative = false) :
    d.display.toList = placed d.mantissa d.scale := by
  rw [display, h, String.toList_ofList]
  rfl

theorem numberText_display (h : d.negative = false) : NumberText d.display.toList := by
  rw [toList_display h]
  exact (parts_placed d.mantissa d.scale).1

/-- A printed decimal is read as itself. -/
theorem ofText?_display (h : d.negative = false) : ofText? d.display = some d := by
  obtain ⟨_, hpoints, hlength, hvalue⟩ := parts_placed d.mantissa d.scale
  rw [← toList_display h] at hpoints hlength hvalue
  obtain ⟨r, hr, hmantissa, hscale, _⟩ := exists_ofText?_of_fits (numberText_display h) hpoints
    (hlength.trans_le d.scale_le) (hvalue.trans_lt d.mantissa_lt)
  have hsame : r = d.toMagnitude :=
    Magnitude.ext (hmantissa.trans hvalue) (hscale.trans hlength)
  obtain ⟨m, negative, _⟩ := d
  obtain rfl : negative = false := h
  rw [hr, hsame]
  rfl

/-- The printed decimal is scanned as one number, which has this decimal. -/
def ScansBack (d : Decimal) : Prop :=
  ∀ offset, tokenize d.display offset = ⟨[.ofText .number d.display, .endOfInput], []⟩ ∧
    (Token.ofText .number d.display).decimal? = some d

theorem scansBack_iff : d.ScansBack ↔ d.negative = false := by
  constructor
  · intro h
    -- The text of a number begins with a digit, and not with a sign.
    have hmem : Token.ofText .number d.display ∈ (tokenize d.display 0).tokens := by
      rw [(h 0).1]
      exact List.mem_cons_self
    obtain ⟨text, htext, _, hnumber⟩ := Token.exists_numberText hmem rfl
    obtain rfl : d.display = text := Option.some.inj htext
    obtain ⟨c, tail, heq, hrole⟩ := hnumber.eq_cons
    cases hnegative : d.negative with
    | false => rfl
    | true =>
      rw [display, hnegative, String.toList_ofList] at heq
      rw [← (List.cons.inj heq).1] at hrole
      exact absurd hrole (by decide)
  · intro h offset
    have htokens := tokenize_numberText (numberText_display h) offset
    rw [String.ofList_toList] at htokens
    exact ⟨htokens, (Token.decimal?_ofText _).trans (ofText?_display h)⟩

end Decimal

/-- Just the decimals without a sign are scanned back when they are printed, and so are all that the
numbers of a scan have. -/
theorem tokenize_display :
    (∀ d : Decimal, d.ScansBack ↔ d.negative = false) ∧
      ∀ (expression : String) (offset : Nat), ∀ t ∈ (tokenize expression offset).tokens,
        t.kind = .number → ∀ d, t.decimal? = some d → d.ScansBack := by
  refine ⟨fun d => Decimal.scansBack_iff, ?_⟩
  intro expression offset t ht hkind d hd
  obtain ⟨text, _, hdecimal, hnumber⟩ := Token.exists_numberText ht hkind
  rw [hdecimal] at hd
  exact Decimal.scansBack_iff.2 (Decimal.isReadingOf_of_ofText? hnumber hd).not_negative

/-- The greatest mantissa with all of its places, which is printed otherwise than it was written. -/
theorem tokenize_display_greatest :
    let number := "7.92281625142643375935439503350"
    ∃ d : Decimal, (Token.ofText .number number).decimal? = some d ∧
      d.display = "7.9228162514264337593543950335" ∧ d.ScansBack := by
  intro number
  have htokens : (tokenize number 0).tokens = [.ofText .number number, .endOfInput] := by
    decide +kernel
  have hmem : Token.ofText .number number ∈ (tokenize number 0).tokens :=
    htokens ▸ List.mem_cons_self
  have hdecimal : (Token.ofText .number number).decimal? =
      some ⟨⟨79228162514264337593543950335, 28, by decide, by decide⟩, false, nofun⟩ := by
    decide +kernel
  exact ⟨_, hdecimal, by decide +kernel, tokenize_display.2 _ _ _ hmem rfl _ hdecimal⟩

end ColumnFormula
