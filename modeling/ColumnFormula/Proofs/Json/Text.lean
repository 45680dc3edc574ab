import ColumnFormula.Json.Text

/-!
# Strings are read as they were written

A string that is written from a text is read back as that text, whatever characters it has.  Writing
goes by characters and reading by units, so the way back is one fact about a single character
(`readUnits_escape`) and one about the units of a text, none of which is half of a pair.
-/

namespace ColumnFormula.Json

/-! ## Single characters -/

/-- A character is written by a letter, by its number, or as it is. -/
theorem escape_cases (c : Char) :
    (∃ letter, escape c = ['\\', letter] ∧ letter ≠ 'u' ∧ escaped? letter = some c.toNat) ∨
    (escape c = escapeNumber c.toNat ∧ c.toNat < 0x20) ∨
    (escape c = [c] ∧ c ≠ '"' ∧ c ≠ '\\' ∧ ¬ c.toNat < 0x20) := by
  by_cases hletter : c ∈ ['"', '\\', '\x08', '\t', '\n', '\x0c', '\r']
  · simp only [List.mem_cons, List.not_mem_nil, or_false] at hletter
    left
    rcases hletter with rfl | rfl | rfl | rfl | rfl | rfl | rfl
    · exact ⟨'"', rfl, by decide, rfl⟩
    · exact ⟨'\\', rfl, by decide, rfl⟩
    · exact ⟨'b', rfl, by decide, rfl⟩
    · exact ⟨'t', rfl, by decide, rfl⟩
    · exact ⟨'n', rfl, by decide, rfl⟩
    · exact ⟨'f', rfl, by decide, rfl⟩
    · exact ⟨'r', rfl, by decide, rfl⟩
  · simp only [List.mem_cons, List.not_mem_nil, or_false, not_or] at hletter
    obtain ⟨hquote, hbackslash, hb, ht, hn, hf, hr⟩ := hletter
    right
    rw [escape, if_neg hquote, if_neg hbackslash, if_neg hb, if_neg ht, if_neg hn, if_neg hf,
      if_neg hr]
    by_cases hcontrol : c.toNat < 0x20
    · exact Or.inl ⟨if_pos hcontrol, hcontrol⟩
    · exact Or.inr ⟨if_neg hcontrol, hquote, hbackslash, hcontrol⟩

theorem hexValue?_digitChar {d : Nat} (h : d < 16) : hexValue? d.digitChar = some d := by
  have hall : ∀ d, d < 16 → hexValue? d.digitChar = some d := by decide
  exact hall d h

/-- The number of a control character is read back from its two digits. -/
theorem hexValue4?_escapeNumber {n : Nat} (h : n < 0x20) :
    hexValue4? '0' '0' (n / 16).digitChar (n % 16).digitChar = some n := by
  have hzero : hexValue? '0' = some 0 := by decide
  have hvalue : ((0 * 16 + 0) * 16 + n / 16) * 16 + n % 16 = n := by omega
  rw [hexValue4?, hzero, hexValue?_digitChar (by omega), hexValue?_digitChar (by omega)]
  exact congrArg some hvalue

theorem readUnits_letter {letter : Char} {unit : Nat} (hletter : letter ≠ 'u')
    (h : escaped? letter = some unit) (rest : List Char) :
    readUnits ('\\' :: letter :: rest) = withUnit unit (readUnits rest) := by
  rw [readUnits, h]
  · rfl
  · intro a b c d more hu
    exact absurd hu hletter

theorem readUnits_plain {c : Char} (hquote : c ≠ '"') (hbackslash : c ≠ '\\')
    (hcontrol : ¬ c.toNat < 0x20) (rest : List Char) :
    readUnits (c :: rest) = withUnit c.toNat (readUnits rest) := by
  rw [readUnits, if_neg hcontrol]
  · exact hquote
  · intro a b d e more hback
    exact absurd hback hbackslash
  · intro d more hback
    exact absurd hback hbackslash

/-- What is written of a character is read as its number. -/
theorem readUnits_escape (c : Char) (rest : List Char) :
    readUnits (escape c ++ rest) = withUnit c.toNat (readUnits rest) := by
  rcases escape_cases c with ⟨letter, hescape, hu, hletter⟩ | ⟨hescape, hcontrol⟩ |
    ⟨hescape, hquote, hbackslash, hcontrol⟩
  · rw [hescape]
    exact readUnits_letter hu hletter rest
  · rw [hescape]
    show readUnits ('\\' :: 'u' :: '0' :: '0' :: _ :: _ :: rest) = _
    rw [readUnits, hexValue4?_escapeNumber hcontrol]
    rfl
  · rw [hescape]
    exact readUnits_plain hquote hbackslash hcontrol rest

/-! ## Texts -/

/-- What is written of a text is read up to the closing quotation mark. -/
theorem readUnits_flatMap_escape (text rest : List Char) :
    readUnits (text.flatMap escape ++ '"' :: rest) = some (text.map Char.toNat, rest) := by
  induction text with
  | nil => rfl
  | cons c text ih =>
    rw [List.flatMap_cons, List.append_assoc, readUnits_escape, ih]
    rfl

/-- The number of a character is not half of a pair. -/
theorem not_surrogate_toNat (c : Char) :
    isLeadSurrogate c.toNat = false ∧ isTrailSurrogate c.toNat = false := by
  have hvalid : c.toNat < 0xD800 ∨ 0xDFFF < c.toNat ∧ c.toNat < 0x110000 := c.valid
  simp only [isLeadSurrogate, isTrailSurrogate, Bool.and_eq_false_iff, decide_eq_false_iff_not]
  omega

theorem joinUnits_map_toNat (text : List Char) : joinUnits (text.map Char.toNat) = some text := by
  induction text with
  | nil => rfl
  | cons c text ih =>
    obtain ⟨hlead, htrail⟩ := not_surrogate_toNat c
    rw [List.map_cons, joinUnits.eq_def]
    show (if isLeadSurrogate c.toNat = true then _ else if isTrailSurrogate c.toNat = true then _
      else (joinUnits (text.map Char.toNat)).map (Char.ofNat c.toNat :: ·)) = _
    rw [hlead, htrail, ih, Char.ofNat_toNat]
    rfl

/-- A string is read from behind its quotation mark as it was written, and so is one that stands for
no text. -/
theorem exists_quoted (text : Option String) :
    ∃ body, quoted text = '"' :: body ∧ ∀ rest, readString (body ++ rest) = some (text, rest) := by
  cases text with
  | none =>
    refine ⟨unpaired ++ ['"'], rfl, fun rest => ?_⟩
    have hunit : hexValue4? 'd' '8' '0' '0' = some 0xD800 := by decide
    show (readUnits ('\\' :: 'u' :: 'd' :: '8' :: '0' :: '0' :: '"' :: rest)).map _ = _
    rw [readUnits, readUnits, hunit]
    rfl
  | some text =>
    refine ⟨text.toList.flatMap escape ++ ['"'], rfl, fun rest => ?_⟩
    rw [readString, List.append_assoc, List.singleton_append, readUnits_flatMap_escape,
      Option.map_some]
    show some ((joinUnits (text.toList.map Char.toNat)).map String.ofList, rest) = _
    rw [joinUnits_map_toNat, Option.map_some, String.ofList_toList]

end ColumnFormula.Json
