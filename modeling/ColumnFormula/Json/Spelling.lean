import ColumnFormula.Json.Reader

/-!
# Spelling of JSON values

The lexemes that spell a value, whatever the layout of the text they stand in.  The main statement is
that reading undoes spelling (`readValue_spelling`): in front of any lexemes and under any stack of open
containers, the reader goes through the spelling of a value and stands behind that value.
-/

namespace ColumnFormula.Json

mutual

/-- The lexemes of a value. -/
def spelling : Json → List Lexeme
  | .null => [.null]
  | .bool b => [.bool b]
  | .number n => [.number n]
  | .string text => [.string text]
  | .array [] => [.openArray, .closeArray]
  | .array (item :: items) =>
    .openArray :: spelling item ++ spellingItems items ++ [.closeArray]
  | .object [] => [.openObject, .closeObject]
  | .object ((name, value) :: members) =>
    .openObject :: .string name :: .colon :: spelling value ++ spellingMembers members ++
      [.closeObject]

/-- The lexemes of the items of an array behind its first. -/
def spellingItems : List Json → List Lexeme
  | [] => []
  | item :: items => .comma :: spelling item ++ spellingItems items

/-- The lexemes of the members of an object behind its first. -/
def spellingMembers : List (Option String × Json) → List Lexeme
  | [] => []
  | (name, value) :: members =>
    .comma :: .string name :: .colon :: spelling value ++ spellingMembers members

end

/-- A spelling is not empty, and does not start by closing an array. -/
theorem spelling_eq_cons (value : Json) :
    ∃ lexeme more, spelling value = lexeme :: more ∧ lexeme ≠ .closeArray := by
  unfold spelling
  split <;> simp

mutual

/-- The reader goes through the spelling of a value and stands behind that value. -/
theorem readValue_spelling (value : Json) (stack : List Frame) (rest : List Lexeme) :
    readValue stack (spelling value ++ rest) = readAfter value stack rest := by
  match value with
  | .null | .bool _ | .number _ | .string _ => simp [spelling, readValue]
  | .array [] => simp [spelling, readValue]
  | .array (item :: items) =>
    obtain ⟨lexeme, more, heq, hne⟩ := spelling_eq_cons item
    have h := readValue_spelling item (.array [] :: stack)
      (spellingItems items ++ .closeArray :: rest)
    rw [heq] at h
    simp only [spelling, heq, List.cons_append, List.append_assoc, List.nil_append] at h ⊢
    rw [readValue]
    · rw [h, readAfter_spellingItems items]
      rfl
    · simp_all
  | .object [] => simp [spelling, readValue]
  | .object ((name, value) :: members) =>
    simp only [spelling, List.cons_append, List.append_assoc, List.nil_append]
    rw [readValue, readValue_spelling value, readAfter_spellingMembers members]
    rfl

/-- The same for the items of an array that stand behind a value. -/
theorem readAfter_spellingItems (items : List Json) (value : Json) (done : List Json)
    (stack : List Frame) (rest : List Lexeme) :
    readAfter value (.array done :: stack) (spellingItems items ++ .closeArray :: rest) =
      readAfter (.array (done.reverse ++ value :: items)) stack rest := by
  match items with
  | [] => simp [spellingItems, readAfter]
  | item :: items =>
    simp only [spellingItems, List.cons_append, List.append_assoc]
    rw [readAfter, readValue_spelling item, readAfter_spellingItems items]
    simp

/-- The same for the members of an object that stand behind a value. -/
theorem readAfter_spellingMembers (members : List (Option String × Json)) (value : Json)
    (name : Option String) (done : List (Option String × Json)) (stack : List Frame)
    (rest : List Lexeme) :
    readAfter value (.object done name :: stack) (spellingMembers members ++ .closeObject :: rest) =
      readAfter (.object (done.reverse ++ (name, value) :: members)) stack rest := by
  match members with
  | [] => simp [spellingMembers, readAfter]
  | (name', value') :: members =>
    simp only [spellingMembers, List.cons_append, List.append_assoc]
    rw [readAfter, readValue_spelling value', readAfter_spellingMembers members]
    simp

end

/-- Reading the spelling of a value gives that value. -/
theorem readValue_spelling_nil (value : Json) : readValue [] (spelling value) = some value := by
  have h := readValue_spelling value [] []
  rwa [List.append_nil, readAfter] at h

end ColumnFormula.Json
