import ColumnFormula.Scan.Config
import ColumnFormula.Scan.Nested
import Mathlib.Data.List.TakeWhile

/-!
# The text of a region

The machine walks over positions of a shared source, and the nested scan over lists of characters.
This module is the dictionary between the two.  What is left of a region that ends at `stop`, seen
from a position, is the list `s.chars position stop`: it has a first character exactly where
`charBefore` finds one, moving on drops from it, and every forward movement of a reader goes over a
stretch that a list function takes from it (`runEnd_holds_eq`, `runEnd_inNumber`).
-/

namespace ColumnFormula

namespace Source

variable {s : Source} {start stop : Nat}

/-! ## Reading a region character by character -/

theorem chars_eq (s : Source) (start stop : Nat) :
    s.chars start stop = ((s.marks.toList.map (·.char)).drop start).take (stop - start) := by
  simp [chars, List.extract_eq_take_drop]

theorem length_chars (s : Source) (start : Nat) {stop : Nat} (h : stop ≤ s.length) :
    (s.chars start stop).length = stop - start := by
  rw [chars_eq]
  simp only [List.length_take, List.length_drop, List.length_map, Array.length_toList]
  have : stop ≤ s.marks.size := h
  omega

/-- Moving on in a region drops from its text. -/
theorem drop_chars (s : Source) (start stop n : Nat) :
    (s.chars start stop).drop n = s.chars (start + n) stop := by
  rw [chars_eq, chars_eq, List.drop_take, List.drop_drop, Nat.sub_sub]

/-- A stretch is read off the front of any region that it lies in. -/
theorem chars_of_isPrefix {text : List Char} (h : text <+: s.chars start stop) :
    s.chars start (start + text.length) = text := by
  have hlen : text.length ≤ stop - start := by
    have hle := h.length_le
    rw [chars_eq, List.length_take] at hle
    omega
  have htext := List.prefix_iff_eq_take.1 h
  rw [chars_eq, List.take_take, Nat.min_eq_left hlen] at htext
  rw [chars_eq, Nat.add_sub_cancel_left]
  exact htext.symm

/-- Two stretches that meet are one. -/
theorem chars_append (s : Source) {start middle stop : Nat} (h : start ≤ middle)
    (hstop : middle ≤ stop) :
    s.chars start middle ++ s.chars middle stop = s.chars start stop := by
  have hfront : s.chars start middle = (s.chars start stop).take (middle - start) := by
    rw [chars_eq, chars_eq, List.take_take, Nat.min_eq_left (by omega)]
  have hback : s.chars middle stop = (s.chars start stop).drop (middle - start) := by
    rw [drop_chars, Nat.add_sub_cancel' h]
  rw [hfront, hback, List.take_append_drop]

theorem char?_eq (s : Source) (position : Nat) :
    s.char? position = (s.marks.toList.map (·.char))[position]? := by
  simp [char?]

/-- There is a character before the end exactly if the text of the region has a first one. -/
theorem charBefore_eq_head? (s : Source) (stop position : Nat) :
    s.charBefore stop position = (s.chars position stop).head? := by
  rw [charBefore, chars_eq, List.head?_take, List.head?_drop, char?_eq]
  by_cases h : position < stop
  · rw [if_pos h, if_neg (by omega)]
  · rw [if_neg h, if_pos (by omega)]

theorem chars_eq_nil_or_cons (s : Source) (start stop : Nat) :
    s.chars start stop = [] ∨ ∃ c, s.char? start = some c ∧ start < stop ∧
      s.chars start stop = c :: s.chars (start + 1) stop := by
  cases h : s.chars start stop with
  | nil => exact Or.inl rfl
  | cons c rest =>
    refine Or.inr ⟨c, ?_⟩
    have hc : s.charBefore stop start = some c := by rw [charBefore_eq_head?, h]; rfl
    have hrest : rest = s.chars (start + 1) stop := by
      rw [← drop_chars, h]; rfl
    rw [charBefore] at hc
    split at hc
    · exact ⟨hc, ‹_›, by rw [hrest]⟩
    · cases hc

theorem chars_eq_cons {c : Char} {rest : List Char} (h : s.chars start stop = c :: rest) :
    start < stop ∧ s.char? start = some c ∧ s.chars (start + 1) stop = rest := by
  rcases chars_eq_nil_or_cons s start stop with hnil | ⟨d, hd, hlt, heq⟩
  · rw [hnil] at h
    cases h
  · rw [heq] at h
    obtain ⟨rfl, hrest⟩ := List.cons.inj h
    exact ⟨hlt, hd, hrest⟩

theorem chars_of_char? {c : Char} (h : s.char? start = some c) (hlt : start < stop) :
    s.chars start stop = c :: s.chars (start + 1) stop := by
  have hc : s.charBefore stop start = some c := by rw [charBefore, if_pos hlt, h]
  rw [charBefore_eq_head?] at hc
  rcases chars_eq_nil_or_cons s start stop with hnil | ⟨d, hd, _, heq⟩
  · rw [hnil] at hc
    cases hc
  · rw [h] at hd
    rw [heq, Option.some.inj hd]

end Source

namespace Scan

open Source Text

variable {s : Source}

/-! ## Movements of the readers -/

/-- A movement over the characters of a class goes over what `takeWhile` takes. -/
theorem runEnd_holds_eq (s : Source) (p : Char → Bool) (start stop : Nat) :
    runEnd (s.holds p) start stop = start + ((s.chars start stop).takeWhile p).length := by
  fun_induction runEnd (s.holds p) start stop with
  | case1 start h ih =>
    obtain ⟨c, hc, hp⟩ : ∃ c, s.char? start = some c ∧ p c = true := by
      simpa [holds, Option.any_eq_true] using h.2
    rw [ih, chars_of_char? hc h.1, List.takeWhile_cons_of_pos hp, List.length_cons]
    omega
  | case2 start h =>
    rcases chars_eq_nil_or_cons s start stop with hnil | ⟨c, hc, hlt, heq⟩
    · rw [hnil]
      rfl
    · have hp : ¬ p c = true := fun hp => h ⟨hlt, by simp [holds, hc, hp]⟩
      rw [heq, List.takeWhile_cons_of_neg hp]
      rfl

/-- Whether a number goes on is a matter of one character and the one behind it. -/
theorem inNumber_eq {start stop : Nat} {c : Char} (h : s.char? start = some c) :
    inNumber s stop start =
      (c.isDigit || (c == '.' && (s.chars (start + 1) stop).head?.any Char.isDigit)) := by
  have hhead : (decide (start + 1 < stop) && s.holds Char.isDigit (start + 1)) =
      (s.chars (start + 1) stop).head?.any Char.isDigit := by
    rw [← charBefore_eq_head?, charBefore, holds]
    by_cases hlt : start + 1 < stop <;> simp [hlt]
  rw [inNumber, Bool.and_assoc, hhead]
  simp [holds, h]

/-- The movement over a number goes over what `numberTail` takes. -/
theorem runEnd_inNumber (s : Source) (start stop : Nat) :
    runEnd (inNumber s stop) start stop = start + (numberTail (s.chars start stop)).length := by
  fun_induction runEnd (inNumber s stop) start stop with
  | case1 start h ih =>
    rcases chars_eq_nil_or_cons s start stop with hnil | ⟨c, hc, hlt, heq⟩
    · -- A region that is cut off by the end of the source has no character here.
      have hc : s.char? start = none := by
        have := charBefore_eq_head? s stop start
        rw [hnil, charBefore, if_pos h.1] at this
        exact this
      simp [inNumber, holds, hc] at h
    · have hin := h.2
      rw [inNumber_eq hc, Bool.or_eq_true, Bool.and_eq_true, beq_iff_eq] at hin
      rw [ih, heq, numberTail]
      rcases hin with hd | ⟨hpoint, hnext⟩
      · rw [if_pos hd, List.length_cons]
        omega
      · rw [if_neg (by rw [hpoint]; decide), if_pos ⟨hpoint, hnext⟩, List.length_cons]
        omega
  | case2 start h =>
    rcases chars_eq_nil_or_cons s start stop with hnil | ⟨c, hc, hlt, heq⟩
    · rw [hnil]
      rfl
    · have hin : ¬ inNumber s stop start = true := fun hin => h ⟨hlt, hin⟩
      rw [inNumber_eq hc, Bool.or_eq_true, Bool.and_eq_true, beq_iff_eq, not_or] at hin
      rw [heq, numberTail, if_neg hin.1, if_neg hin.2]
      rfl

theorem prefix_numberTail (text : List Char) : numberTail text <+: text := by
  fun_induction numberTail text with
  | case1 => exact List.prefix_rfl
  | case2 c rest _ ih => exact (List.prefix_cons_inj c).2 ih
  | case3 c rest _ _ ih => exact (List.prefix_cons_inj c).2 ih
  | case4 c rest _ _ => exact List.nil_prefix

end Scan

end ColumnFormula
