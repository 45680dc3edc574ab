import ColumnFormula.Token.ColumnRef
import Mathlib.Data.List.Basic

/-!
# Column references as one text

A reference is shown as one text, the table in front of the column, and references are read from such
texts.  The references that a text can be read as are the normal ones (`IsNormal`).  For them showing
and reading are inverse to each other; every other reference is shown as a text that reads as another
one.  Of a text itself only a point at its end is lost, and only if there is no other point in it.
-/

namespace ColumnFormula.ColumnRef

/-- A reference such as texts are read as: the first point of a text splits the table off, so there is
none in a table or in a column on its own, and a table is named only together with a column. -/
def IsNormal (c : ColumnRef) : Prop :=
  match c.table with
  | none => '.' ∉ c.column.toList
  | some table => '.' ∉ table.toList ∧ c.column ≠ ""

/-- A text has no point, or ends with its first one, or has something behind it. -/
theorem point_cases (text : List Char) :
    '.' ∉ text ∨ ∃ table, '.' ∉ table ∧
      (text = table ++ ['.'] ∨ ∃ c column, text = table ++ '.' :: c :: column) := by
  by_cases hpoint : '.' ∈ text
  · obtain ⟨table, behind, rfl, hnot⟩ := List.eq_append_cons_of_mem hpoint
    refine Or.inr ⟨table, hnot, ?_⟩
    cases behind with
    | nil => exact Or.inl rfl
    | cons c column => exact Or.inr ⟨c, column, rfl⟩
  · exact Or.inl hpoint

/-! ## Reading -/

theorem isNormal_ofChars (text : List Char) : (ofChars text).IsNormal := by
  rcases point_cases text with hnot | ⟨table, hnot, rfl | ⟨c, column, rfl⟩⟩
  · rw [ofChars_of_no_point hnot]
    show '.' ∉ (String.ofList text).toList
    rwa [String.toList_ofList]
  · rw [ofChars_point hnot]
    show '.' ∉ (String.ofList table).toList
    rwa [String.toList_ofList]
  · rw [ofChars_append hnot]
    refine ⟨by rwa [String.toList_ofList], fun hempty => ?_⟩
    have hnil := congrArg String.toList hempty
    rw [String.toList_ofList] at hnil
    exact List.cons_ne_nil _ _ hnil

/-- A point that ends the text, and is the first one, is not shown again; everything else is. -/
theorem toList_display_ofChars (text : List Char) :
    (ofChars text).display.toList =
      if text.idxOf '.' + 1 = text.length then text.dropLast else text := by
  rcases point_cases text with hnot | ⟨table, hnot, rfl | ⟨c, column, rfl⟩⟩
  · rw [ofChars_of_no_point hnot, display, String.toList_ofList, List.idxOf_eq_length hnot,
      if_neg (Nat.succ_ne_self _)]
  · have hend : (table ++ ['.']).idxOf '.' + 1 = (table ++ ['.']).length := by
      rw [List.idxOf_append_of_notMem hnot, List.idxOf_cons_self, List.length_append]
      rfl
    rw [ofChars_point hnot, display, String.toList_ofList, if_pos hend, List.dropLast_concat]
  · have hmore : (table ++ '.' :: c :: column).idxOf '.' + 1 ≠
        (table ++ '.' :: c :: column).length := by
      rw [List.idxOf_append_of_notMem hnot, List.idxOf_cons_self, List.length_append]
      simp
    rw [ofChars_append hnot, display, if_neg hmore]
    simp

/-- Nothing is shown that was not read. -/
theorem mem_of_mem_display {text : List Char} {d : Char} (h : d ∈ (ofChars text).display.toList) :
    d ∈ text := by
  rw [toList_display_ofChars] at h
  split at h
  · exact (List.dropLast_sublist text).subset h
  · exact h

/-! ## Showing -/

/-- A normal reference is read from the text that it is shown as. -/
theorem ofText_display {c : ColumnRef} (h : c.IsNormal) : ofText c.display = c := by
  obtain ⟨table, column⟩ := c
  cases table with
  | none =>
    show ofChars column.toList = _
    rw [ofChars_of_no_point h, String.ofList_toList]
  | some table =>
    obtain ⟨hnot, hne⟩ := h
    have htext : (ColumnRef.mk (some table) column).display.toList =
        table.toList ++ '.' :: column.toList := by
      simp [display]
    have hcolumn : column.toList ≠ [] := fun hnil => hne (String.toList_eq_nil_iff.1 hnil)
    obtain ⟨c, more, hmore⟩ := List.exists_cons_of_ne_nil hcolumn
    rw [ofText, htext, hmore, ofChars_append hnot, ← hmore, String.ofList_toList,
      String.ofList_toList]

/-- Normal references are told apart by the texts that they are shown as. -/
theorem IsNormal.display_inj {c c' : ColumnRef} (h : c.IsNormal) (h' : c'.IsNormal)
    (hdisplay : c.display = c'.display) : c = c' := by
  rw [← ofText_display h, hdisplay, ofText_display h']

/-- Reading and showing columns undo each other as far as they can.  A text is shown again as it was
read, without its last character if that is the first point in it.  What is read from a text is read
again from what that is shown as, so that two texts shown alike are read alike.  The references that
are read from what they are shown as are the normal ones. -/
theorem display_inverse :
    (∀ text : String, (ofText text).display =
        if text.toList.idxOf '.' + 1 = text.toList.length then String.ofList text.toList.dropLast
        else text) ∧
      (∀ text : String, ofText (ofText text).display = ofText text) ∧
      (∀ text text' : String, (ofText text).display = (ofText text').display →
        ofText text = ofText text') ∧
      ∀ c : ColumnRef, ofText c.display = c ↔ c.IsNormal := by
  have hnormal : ∀ text : String, (ofText text).IsNormal := fun text => isNormal_ofChars text.toList
  refine ⟨?_, ?_, ?_, ?_⟩
  · intro text
    rw [← String.toList_inj, ofText, toList_display_ofChars]
    split
    · rw [String.toList_ofList]
    · rfl
  · intro text
    exact ofText_display (hnormal text)
  · intro text text' hdisplay
    exact (hnormal text).display_inj (hnormal text') hdisplay
  · intro c
    constructor
    · intro hread
      rw [← hread]
      exact hnormal c.display
    · exact ofText_display

/-- A text with a point at its end is shown, and therefore read, like the text without it. -/
theorem display_inverse_point :
    (ofText "orders.").display = (ofText "orders").display ∧ ofText "orders." = ofText "orders" := by
  have hdisplay : (ofText "orders.").display = (ofText "orders").display := by decide
  exact ⟨hdisplay, display_inverse.2.2.1 "orders." "orders" hdisplay⟩

end ColumnFormula.ColumnRef
