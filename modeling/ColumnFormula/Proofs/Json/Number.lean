import ColumnFormula.Json.Lexeme
import ColumnFormula.Json.Printer
import ColumnFormula.Proofs.Text.Numeral
import Mathlib.Data.List.TakeWhile

/-!
# Numbers are read as they were written

A number that is written by its parts is read back with the same parts: sign, mantissa, scale and
exponent.  Each part is read up to where it ends, so every statement here is about the part in front
of what follows it, and says what may follow (`EndsNumber`).
-/

namespace ColumnFormula.Json

open Text

/-- Where a number is not gone on with. -/
def EndsNumber (rest : List Char) : Prop :=
  ∀ c ∈ rest.head?, c.isDigit = false ∧ c ≠ '.' ∧ c ≠ 'e' ∧ c ≠ 'E'

theorem endsNumber_nil : EndsNumber [] :=
  fun _ h => absurd h (Option.not_mem_none _)

/-! ## Digits -/

theorem takeWhile_isDigit_append {ds rest : List Char} (hds : ∀ c ∈ ds, c.isDigit = true)
    (hrest : ∀ c ∈ rest.head?, c.isDigit = false) :
    (ds ++ rest).takeWhile Char.isDigit = ds ∧ (ds ++ rest).dropWhile Char.isDigit = rest := by
  rw [List.takeWhile_append_of_pos hds, List.dropWhile_append_of_pos hds]
  cases rest with
  | nil => exact ⟨List.append_nil ds, rfl⟩
  | cons c rest =>
    have hc : ¬ c.isDigit = true := Bool.eq_false_iff.1 (hrest c rfl)
    rw [List.takeWhile_cons_of_neg hc, List.dropWhile_cons_of_neg hc, List.append_nil]
    exact ⟨rfl, rfl⟩

/-! ## Exponents -/

theorem readExponentDigits_digits (sign : Int) (n : Nat) {rest : List Char} (h : EndsNumber rest) :
    readExponentDigits sign (digits n ++ rest) = some (some (sign * n), rest) := by
  obtain ⟨htake, hdrop⟩ := takeWhile_isDigit_append (fun _ => isDigit_of_mem_digits (n := n))
    fun c hc => (h c hc).1
  rw [readExponentDigits, htake, hdrop, if_neg (digits_ne_nil n), valueOf_digits]

/-- Behind the letter of an exponent the digits stand without a sign or behind a minus. -/
theorem readExponent_letter (n : Nat) {rest : List Char} (h : EndsNumber rest) :
    readExponent ('e' :: (digits n ++ rest)) = some (some (n : Int), rest) ∧
      readExponent ('e' :: '-' :: (digits n ++ rest)) = some (some (-n : Int), rest) := by
  constructor
  · obtain ⟨c, more, hdigits⟩ := List.exists_cons_of_ne_nil (digits_ne_nil n)
    have hc : c.isDigit = true := isDigit_of_mem_digits (n := n) (by rw [hdigits]; simp)
    have hread := readExponentDigits_digits 1 n h
    rw [Int.one_mul, hdigits, List.cons_append] at hread
    rw [hdigits, List.cons_append, readExponent, if_pos (Or.inl rfl), hread]
    · intro text hplus
      rw [(List.cons.inj hplus).1] at hc
      cases hc
    · intro text hminus
      rw [(List.cons.inj hminus).1] at hc
      cases hc
  · have hread := readExponentDigits_digits (-1) n h
    rwa [Int.neg_one_mul] at hread

theorem readExponent_printExponent (exponent : Option Int) {rest : List Char} (h : EndsNumber rest) :
    readExponent (printExponent exponent ++ rest) = some (exponent, rest) := by
  cases exponent with
  | none =>
    cases rest with
    | nil => rfl
    | cons c rest =>
      obtain ⟨_, _, he, hE⟩ := h c rfl
      rw [printExponent, List.nil_append, readExponent.eq_def]
      exact if_neg (not_or.2 ⟨he, hE⟩)
  | some e =>
    obtain ⟨hplain, hminus⟩ := readExponent_letter e.natAbs h
    rw [printExponent]
    split
    · rw [show -(e.natAbs : Int) = e by omega] at hminus
      exact hminus
    · rw [show (e.natAbs : Int) = e by omega] at hplain
      exact hplain

/-- An exponent is neither digits nor a fraction. -/
theorem head_printExponent (exponent : Option Int) {rest : List Char} (h : EndsNumber rest) :
    ∀ c ∈ (printExponent exponent ++ rest).head?, c.isDigit = false ∧ c ≠ '.' := by
  intro c hc
  cases exponent with
  | none => exact ⟨(h c hc).1, (h c hc).2.1⟩
  | some e =>
    obtain rfl := Option.some.inj hc
    exact ⟨rfl, by decide⟩

/-! ## Numbers -/

/-- The digits behind a point are read if there are any. -/
theorem readFraction_append {fraction rest : List Char} (hfraction : ∀ c ∈ fraction, c.isDigit = true)
    (hrest : ∀ c ∈ rest.head?, c.isDigit = false ∧ c ≠ '.') :
    readFraction ((if fraction.length = 0 then [] else '.' :: fraction) ++ rest) =
      some (fraction, rest) := by
  split
  · rename_i hnil
    obtain rfl := List.length_eq_zero_iff.1 hnil
    cases rest with
    | nil => rfl
    | cons c rest =>
      rw [List.nil_append, readFraction]
      intro more hpoint
      exact (hrest c rfl).2 (List.cons.inj hpoint).1
  · rename_i hne
    obtain ⟨htake, hdrop⟩ := takeWhile_isDigit_append hfraction fun c hc => (hrest c hc).1
    have hnil : fraction ≠ [] := fun h => hne (List.length_eq_zero_iff.2 h)
    show readFraction ('.' :: (fraction ++ rest)) = _
    rw [readFraction, htake, hdrop, if_neg hnil]

/-- What is written of a number behind its sign is read as that number. -/
theorem readNumber_placed (n : Number) {rest : List Char} (h : EndsNumber rest) :
    readNumber n.negative (placed n.mantissa n.scale ++ (printExponent n.exponent ++ rest)) =
      some (n, rest) := by
  obtain ⟨whole, fraction, hwhole, hfraction, hscale, hvalue, hplaced⟩ :=
    exists_placed n.mantissa n.scale
  have hexponent := head_printExponent n.exponent h
  have hpoint : ∀ c ∈ ((if fraction.length = 0 then [] else '.' :: fraction) ++
      (printExponent n.exponent ++ rest)).head?, c.isDigit = false := by
    split
    · exact fun c hc => (hexponent c hc).1
    · intro c hc
      obtain rfl := Option.some.inj hc
      rfl
  obtain ⟨htake, hdrop⟩ := takeWhile_isDigit_append hwhole.isDigit hpoint
  have hzero : ¬ (whole = [] ∨ (whole.head? = some '0' ∧ whole.length ≠ 1)) := by
    rintro (hnil | ⟨hhead, hlength⟩)
    · exact hwhole.ne_nil hnil
    · exact hlength (hwhole.length_eq_one hhead)
  rw [hplaced, ← hscale, List.append_assoc, readNumber]
  simp only [htake, hdrop]
  rw [if_neg hzero, readFraction_append hfraction hexponent]
  show (readExponent (printExponent n.exponent ++ rest)).map _ = _
  rw [readExponent_printExponent n.exponent h, Option.map_some, hvalue, hscale]

end ColumnFormula.Json
