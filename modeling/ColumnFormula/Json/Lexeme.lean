import ColumnFormula.Json.Basic
import ColumnFormula.Json.Text
import ColumnFormula.Text.Numeral

/-!
# Lexemes of JSON

A JSON text is read in two steps.  This is the first: it takes the text apart into brackets, commas,
colons and scalar values, and leaves out the space between them.  Two scalars without anything between
them come out as two lexemes; that no value may follow another at once is left to the second step.
-/

namespace ColumnFormula.Json

/-- The smallest pieces of a JSON text. -/
inductive Lexeme
  | openArray
  | closeArray
  | openObject
  | closeObject
  | comma
  | colon
  | null
  | bool (b : Bool)
  | number (n : Number)
  | string (text : Option String)
  deriving DecidableEq, Repr

/-- The four characters that may stand between lexemes. -/
def isSpace (c : Char) : Bool :=
  c == ' ' || c == '\t' || c == '\n' || c == '\r'

/-! ## Numbers -/

/-- Reads the digits behind a point, if there is a point. -/
def readFraction : List Char → Option (List Char × List Char)
  | '.' :: text =>
    if text.takeWhile Char.isDigit = [] then none
    else some (text.takeWhile Char.isDigit, text.dropWhile Char.isDigit)
  | text => some ([], text)

/-- Reads the digits of an exponent behind its sign. -/
def readExponentDigits (sign : Int) (text : List Char) : Option (Option Int × List Char) :=
  if text.takeWhile Char.isDigit = [] then none
  else
    some (some (sign * Text.valueOf (text.takeWhile Char.isDigit)), text.dropWhile Char.isDigit)

/-- Reads an exponent, if there is one. -/
def readExponent : List Char → Option (Option Int × List Char)
  | c :: text =>
    if c = 'e' ∨ c = 'E' then
      match text with
      | '+' :: text => readExponentDigits 1 text
      | '-' :: text => readExponentDigits (-1) text
      | text => readExponentDigits 1 text
    else some (none, c :: text)
  | [] => some (none, [])

/-- Reads a number from behind its sign.  The digits before the point are not empty and have no zero
in front. -/
def readNumber (negative : Bool) (text : List Char) : Option (Number × List Char) :=
  let whole := text.takeWhile Char.isDigit
  if whole = [] ∨ (whole.head? = some '0' ∧ whole.length ≠ 1) then none
  else
    readFraction (text.dropWhile Char.isDigit) >>= fun (fraction, rest) =>
      (readExponent rest).map fun (exponent, rest) =>
        (⟨negative, Text.valueOf (whole ++ fraction), fraction.length, exponent⟩, rest)

/-! ## Lexemes -/

/-- Reads one lexeme from the front of a text that does not start with a space. -/
def readLexeme : List Char → Option (Lexeme × List Char)
  | '[' :: rest => some (.openArray, rest)
  | ']' :: rest => some (.closeArray, rest)
  | '{' :: rest => some (.openObject, rest)
  | '}' :: rest => some (.closeObject, rest)
  | ',' :: rest => some (.comma, rest)
  | ':' :: rest => some (.colon, rest)
  | '"' :: rest => (readString rest).map fun (text, rest) => (.string text, rest)
  | 'n' :: 'u' :: 'l' :: 'l' :: rest => some (.null, rest)
  | 't' :: 'r' :: 'u' :: 'e' :: rest => some (.bool true, rest)
  | 'f' :: 'a' :: 'l' :: 's' :: 'e' :: rest => some (.bool false, rest)
  | '-' :: rest => (readNumber true rest).map fun (n, rest) => (.number n, rest)
  | text => (readNumber false text).map fun (n, rest) => (.number n, rest)

theorem length_dropWhile_le (p : Char → Bool) (text : List Char) :
    (text.dropWhile p).length ≤ text.length :=
  (List.dropWhile_sublist p).length_le

theorem readFraction_length {text fraction rest : List Char}
    (h : readFraction text = some (fraction, rest)) : rest.length ≤ text.length := by
  unfold readFraction at h
  split at h
  · split at h
    · cases h
    · simp only [Option.some.injEq, Prod.mk.injEq] at h
      obtain ⟨_, rfl⟩ := h
      exact Nat.le_succ_of_le (length_dropWhile_le _ _)
  · simp only [Option.some.injEq, Prod.mk.injEq] at h
    exact Nat.le_of_eq (congrArg List.length h.2.symm)

theorem readExponentDigits_length {sign : Int} {text rest : List Char} {exponent : Option Int}
    (h : readExponentDigits sign text = some (exponent, rest)) : rest.length ≤ text.length := by
  unfold readExponentDigits at h
  split at h
  · cases h
  · simp only [Option.some.injEq, Prod.mk.injEq] at h
    obtain ⟨_, rfl⟩ := h
    exact length_dropWhile_le _ _

theorem readExponent_length {text rest : List Char} {exponent : Option Int}
    (h : readExponent text = some (exponent, rest)) : rest.length ≤ text.length := by
  unfold readExponent at h
  split at h
  · split at h
    · split at h
      all_goals
        have := readExponentDigits_length h
        simp only [List.length_cons]
        omega
    · simp only [Option.some.injEq, Prod.mk.injEq] at h
      exact Nat.le_of_eq (congrArg List.length h.2.symm)
  · simp only [Option.some.injEq, Prod.mk.injEq] at h
    exact Nat.le_of_eq (congrArg List.length h.2.symm)

theorem readNumber_length {negative : Bool} {text rest : List Char} {n : Number}
    (h : readNumber negative text = some (n, rest)) : rest.length < text.length := by
  simp only [readNumber] at h
  split at h
  · cases h
  · rename_i hwhole
    obtain ⟨⟨fraction, r⟩, hf, h⟩ := Option.bind_eq_some_iff.1 h
    obtain ⟨⟨exponent, r'⟩, he, h⟩ := Option.map_eq_some_iff.1 h
    simp only [Prod.mk.injEq] at h
    obtain ⟨_, rfl⟩ := h
    have h1 := readFraction_length hf
    have h2 : r'.length ≤ r.length := readExponent_length he
    have h3 := congrArg List.length (List.takeWhile_append_dropWhile (p := Char.isDigit) (l := text))
    have h4 : 0 < (text.takeWhile Char.isDigit).length :=
      List.length_pos_iff.2 fun hnil => hwhole (Or.inl hnil)
    simp only [List.length_append] at h3
    omega

theorem readLexeme_length {text rest : List Char} {l : Lexeme}
    (h : readLexeme text = some (l, rest)) : rest.length < text.length := by
  unfold readLexeme at h
  split at h
  case h_7 =>
    obtain ⟨⟨s, r⟩, hs, h⟩ := Option.map_eq_some_iff.1 h
    simp only [Prod.mk.injEq] at h
    obtain ⟨_, rfl⟩ := h
    exact Nat.lt_succ_of_lt (readString_length hs)
  case h_11 =>
    obtain ⟨⟨n, r⟩, hn, h⟩ := Option.map_eq_some_iff.1 h
    simp only [Prod.mk.injEq] at h
    obtain ⟨_, rfl⟩ := h
    exact Nat.lt_succ_of_lt (readNumber_length hn)
  case h_12 =>
    obtain ⟨⟨n, r⟩, hn, h⟩ := Option.map_eq_some_iff.1 h
    simp only [Prod.mk.injEq] at h
    obtain ⟨_, rfl⟩ := h
    exact readNumber_length hn
  all_goals
    simp only [Option.some.injEq, Prod.mk.injEq] at h
    obtain ⟨_, rfl⟩ := h
    simp only [List.length_cons]
    omega

/-- Takes a text apart, or gives `none` if some of it is no lexeme. -/
def lexemes? (text : List Char) : Option (List Lexeme) :=
  match text with
  | [] => some []
  | c :: rest =>
    if isSpace c then lexemes? rest
    else
      match _h : readLexeme (c :: rest) with
      | none => none
      | some (lexeme, rest) => (lexemes? rest).map (lexeme :: ·)
termination_by text.length
decreasing_by
  · exact Nat.lt_succ_self _
  · exact readLexeme_length _h

theorem lexemes?_of_space {c : Char} (h : isSpace c = true) (rest : List Char) :
    lexemes? (c :: rest) = lexemes? rest := by
  rw [lexemes?, if_pos h]

theorem lexemes?_of_read {c : Char} {text rest : List Char} {l : Lexeme} (h : isSpace c = false)
    (hread : readLexeme (c :: text) = some (l, rest)) :
    lexemes? (c :: text) = (lexemes? rest).map (l :: ·) := by
  rw [lexemes?, if_neg (by simp [h])]
  split <;> simp_all

end ColumnFormula.Json
