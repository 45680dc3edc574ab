/-!
# Column references

The text between square brackets names a column, and in front of a point also the table it belongs
to.  Only the first point splits, so a column may have points in its name and a table may not.  A
point with nothing behind it does not name a table: the text in front of it is the column.
-/

namespace ColumnFormula

/-- A column, and the table that it is looked up in if one is named. -/
structure ColumnRef where
  table : Option String
  column : String
  deriving DecidableEq, Repr, Inhabited

namespace ColumnRef

/-- Reads the characters between two brackets. -/
def ofChars (text : List Char) : ColumnRef :=
  match text.dropWhile (· != '.') with
  | [] => ⟨none, String.ofList text⟩
  | [_] => ⟨none, String.ofList (text.takeWhile (· != '.'))⟩
  | _ :: column => ⟨some (String.ofList (text.takeWhile (· != '.'))), String.ofList column⟩

/-- Reads the text between two brackets. -/
def ofText (text : String) : ColumnRef :=
  ofChars text.toList

/-- The reference as one text, the table in front of the column. -/
def display (c : ColumnRef) : String :=
  match c.table with
  | none => c.column
  | some table => table ++ "." ++ c.column

theorem ofChars_of_no_point {text : List Char} (h : '.' ∉ text) :
    ofChars text = ⟨none, String.ofList text⟩ := by
  have hall : ∀ c ∈ text, (c != '.') = true := fun c hc => bne_iff_ne.2 fun hp => h (hp ▸ hc)
  have hnil : (text ++ []).dropWhile (· != '.') = [].dropWhile (· != '.') :=
    List.dropWhile_append_of_pos hall
  rw [List.append_nil, List.dropWhile_nil] at hnil
  simp [ofChars, hnil]

theorem takeWhile_point {table : List Char} (h : '.' ∉ table) (rest : List Char) :
    (table ++ '.' :: rest).takeWhile (· != '.') = table ∧
      (table ++ '.' :: rest).dropWhile (· != '.') = '.' :: rest := by
  have hall : ∀ c ∈ table, (c != '.') = true := fun c hc =>
    bne_iff_ne.2 fun hp => h (hp ▸ hc)
  rw [List.takeWhile_append_of_pos hall, List.dropWhile_append_of_pos hall]
  simp [List.takeWhile, List.dropWhile]

/-- A point with nothing behind it leaves the text before it as the column. -/
theorem ofChars_point {table : List Char} (h : '.' ∉ table) :
    ofChars (table ++ ['.']) = ⟨none, String.ofList table⟩ := by
  obtain ⟨ht, hd⟩ := takeWhile_point h []
  simp only [ofChars, hd, ht]

/-- The first point splits a text with something behind it. -/
theorem ofChars_append {table : List Char} (h : '.' ∉ table) (c : Char) (column : List Char) :
    ofChars (table ++ '.' :: c :: column) =
      ⟨some (String.ofList table), String.ofList (c :: column)⟩ := by
  obtain ⟨ht, hd⟩ := takeWhile_point h (c :: column)
  simp only [ofChars, hd, ht]

end ColumnRef

end ColumnFormula
