import ColumnFormula.Text.Numeral
import Mathlib.Algebra.Group.Nat.Defs
import Mathlib.Data.List.Basic

/-!
# What numerals look like

The written form of a mantissa and a scale is digits in front of the point, with no zero to begin
them that could be left out, and behind the point as many digits as the scale says
(`exists_placed`).
-/

namespace ColumnFormula.Text

theorem isDigit_of_mem_digits {n : Nat} {c : Char} (h : c ∈ digits n) : c.isDigit = true :=
  Nat.isDigit_of_mem_toDigits (by decide) (by decide) h

theorem not_mem_digits {n : Nat} {c : Char} (h : c.isDigit = false) : c ∉ digits n := by
  intro hmem
  rw [isDigit_of_mem_digits hmem] at h
  cases h

theorem digits_ne_nil (n : Nat) : digits n ≠ [] :=
  Nat.toDigits_ne_nil

/-- The digits of a number begin with a zero only if they are nothing else. -/
theorem digits_eq_zero_of_head {n : Nat} (h : (digits n).head? = some '0') : digits n = ['0'] := by
  induction n using Nat.strongRecOn with
  | ind n ih =>
    have hdigits : digits n =
        if n < 10 then [n.digitChar] else digits (n / 10) ++ [(n % 10).digitChar] :=
      Nat.toDigits_eq_if (by decide)
    by_cases hn : n < 10
    · rw [if_pos hn] at hdigits
      rw [hdigits] at h ⊢
      rw [Option.some.inj h]
    · rw [if_neg hn] at hdigits
      have hhead : (digits (n / 10)).head? = some '0' := by
        rw [hdigits] at h
        rwa [List.head?_append_of_ne_nil _ (digits_ne_nil (n / 10))] at h
      -- Then the digits in front of the last are a zero, and the number has only one digit.
      have hzero := valueOf_digits (n / 10)
      rw [ih (n / 10) (by omega) hhead] at hzero
      have : (0 : Nat) = n / 10 := hzero
      omega

/-! ## What digits stand for -/

@[simp] theorem valueOf_nil : valueOf [] = 0 := rfl

theorem valueOf_append (front back : List Char) :
    valueOf (front ++ back) = valueOf front * 10 ^ back.length + valueOf back := by
  rw [valueOf, Nat.ofDigitChars_append, Nat.ofDigitChars_eq_ofDigitChars_zero, Nat.mul_comm]
  rfl

theorem valueOf_cons (c : Char) (rest : List Char) :
    valueOf (c :: rest) = valueOf [c] * 10 ^ rest.length + valueOf rest :=
  valueOf_append [c] rest

theorem valueOf_singleton_lt {c : Char} (h : c.isDigit = true) : valueOf [c] < 10 := by
  simp only [Char.isDigit, Bool.and_eq_true, decide_eq_true_eq, ge_iff_le, UInt32.le_iff_toNat_le] at h
  have hvalue : valueOf [c] = c.val.toNat - 48 := by
    rw [valueOf, Nat.ofDigitChars_cons, Nat.ofDigitChars_nil, Nat.mul_zero, Nat.zero_add]
    rfl
  have hnine : c.val.toNat ≤ 57 := h.2
  omega

theorem valueOf_lt {ds : List Char} (h : ∀ c ∈ ds, c.isDigit = true) :
    valueOf ds < 10 ^ ds.length := by
  induction ds with
  | nil => exact Nat.one_pos
  | cons c rest ih =>
    obtain ⟨hc, hrest⟩ := List.forall_mem_cons.1 h
    have hfirst : valueOf [c] * 10 ^ rest.length ≤ 9 * 10 ^ rest.length :=
      Nat.mul_le_mul_right _ (Nat.le_of_lt_succ (valueOf_singleton_lt hc))
    have hmore := ih hrest
    rw [valueOf_cons, List.length_cons, Nat.pow_succ]
    omega

/-! ## The parts of a written mantissa -/

/-- Digits as they stand in front of a point: at least one, and no zero in front of others. -/
structure IsWhole (ds : List Char) : Prop where
  ne_nil : ds ≠ []
  isDigit : ∀ c ∈ ds, c.isDigit = true
  length_eq_one : ds.head? = some '0' → ds.length = 1

theorem isWhole_digits (n : Nat) : IsWhole (digits n) :=
  ⟨digits_ne_nil n, fun _ => isDigit_of_mem_digits, fun h => by rw [digits_eq_zero_of_head h]; rfl⟩

theorem isDigit_of_mem_padded {m scale : Nat} {c : Char} (h : c ∈ padded m scale) :
    c.isDigit = true := by
  rcases List.mem_append.1 h with h | h
  · rw [List.eq_of_mem_replicate h]
    rfl
  · exact isDigit_of_mem_digits h

@[simp] theorem valueOf_padded (m scale : Nat) : valueOf (padded m scale) = m := by
  rw [valueOf, padded, Nat.ofDigitChars_append, Nat.ofDigitChars_replicate_zero, Nat.mul_zero]
  exact valueOf_digits m

/-- The digits in front of the point of a filled up mantissa. -/
theorem isWhole_take_padded (m : Nat) {scale : Nat} (h : scale ≠ 0) :
    IsWhole ((padded m scale).take ((padded m scale).length - scale)) := by
  have hlength : (padded m scale).length = scale + 1 - (digits m).length + (digits m).length := by
    rw [padded, List.length_append, List.length_replicate]
  refine ⟨?_, ?_, ?_⟩
  · rw [← List.length_pos_iff, List.length_take]
    omega
  · intro c hc
    exact isDigit_of_mem_padded (List.mem_of_mem_take hc)
  · intro hhead
    rw [List.length_take]
    by_cases hfilled : (digits m).length ≤ scale
    · omega
    · -- Nothing is filled in, so the zero is one of the digits, and there is only one.
      have hpadded : padded m scale = digits m := by
        rw [padded, Nat.sub_eq_zero_of_le (by omega)]
        rfl
      rw [hpadded, List.head?_take, if_neg (by omega)] at hhead
      rw [digits_eq_zero_of_head hhead] at hfilled
      have : ¬ 1 ≤ scale := hfilled
      omega

/-- What is in front of the point and behind it. -/
theorem exists_placed (m scale : Nat) :
    ∃ whole fraction, IsWhole whole ∧ (∀ c ∈ fraction, c.isDigit = true) ∧
      fraction.length = scale ∧ valueOf (whole ++ fraction) = m ∧
      placed m scale = whole ++ (if scale = 0 then [] else '.' :: fraction) := by
  by_cases h : scale = 0
  · refine ⟨digits m, [], isWhole_digits m, by simp, h.symm, ?_, ?_⟩
    · rw [List.append_nil, valueOf_digits]
    · rw [placed, if_pos h, if_pos h, List.append_nil]
  · have hle : scale ≤ (padded m scale).length := by
      rw [padded, List.length_append, List.length_replicate]
      omega
    refine ⟨_, (padded m scale).drop ((padded m scale).length - scale), isWhole_take_padded m h,
      fun c hc => isDigit_of_mem_padded (List.mem_of_mem_drop hc), ?_, ?_, ?_⟩
    · rw [List.length_drop]
      omega
    · rw [List.take_append_drop, valueOf_padded]
    · rw [placed, if_neg h, if_neg h]

/-- A written mantissa begins with a digit. -/
theorem placed_eq_cons (m scale : Nat) :
    ∃ c more, placed m scale = c :: more ∧ c.isDigit = true := by
  obtain ⟨whole, fraction, hwhole, _, _, _, hplaced⟩ := exists_placed m scale
  obtain ⟨c, more, rfl⟩ := List.exists_cons_of_ne_nil hwhole.ne_nil
  exact ⟨c, _, hplaced, hwhole.isDigit c List.mem_cons_self⟩

end ColumnFormula.Text
