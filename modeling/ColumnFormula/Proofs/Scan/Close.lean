import ColumnFormula.Proofs.Scan.Item

/-!
# The search for a closing parenthesis

A search goes through the whole source, whatever region asks for it, and its find is kept until the
cursor has passed it.  Two facts make this as good as a search of the region alone: the find of a
search that starts earlier is the find of every search that starts between there and it
(`searchClose_of_le`), and the find is inside a region exactly if the region has a closing parenthesis
(`searchClose_of_cut`, `le_searchClose_of_not_mem`).
-/

namespace ColumnFormula.Scan

open Source Text

variable {s : Source} {position stop : Nat}

theorem le_searchClose (s : Source) (position : Nat) : position ≤ searchClose s position :=
  le_runEnd _ position s.length

theorem searchClose_le (h : position ≤ s.length) : searchClose s position ≤ s.length :=
  runEnd_le h

/-- A search that starts no later than the find of an earlier one finds the same. -/
theorem searchClose_of_le {later : Nat} (h : position ≤ s.length) (hle : position ≤ later)
    (hfind : later ≤ searchClose s position) : searchClose s later = searchClose s position := by
  refine runEnd_eq hfind (searchClose_le h) ?_ fun hlt => runEnd_fails hlt
  intro i hi hlt
  exact runEnd_holds (Nat.le_trans hle hi) hlt

/-- The search, on the characters. -/
theorem searchClose_eq (h : position ≤ s.length) :
    searchClose s position =
      position + ((s.chars position s.length).takeWhile (· != ')')).length := by
  have hpast := runEnd_holds_eq s (· != ')') position s.length
  -- The two tests differ behind the last character only, where neither movement comes.
  have hsame : ∀ i < s.length, s.holds (· != ')') i = !s.holds (· == ')') i := by
    intro i hi
    have hi' : i < s.marks.size := hi
    simp [holds, char?, hi', bne]
  rw [← hpast]
  refine runEnd_eq (le_runEnd _ _ _) (runEnd_le h) ?_ ?_
  · intro i hi hlt
    rw [← hsame i (Nat.lt_of_lt_of_le hlt (runEnd_le h))]
    exact runEnd_holds hi hlt
  · intro hlt
    rw [← hsame _ hlt]
    exact runEnd_fails hlt

/-- A region without a closing parenthesis ends before the find of the search. -/
theorem le_searchClose_of_not_mem (h : position ≤ stop) (hlen : stop ≤ s.length)
    (hmem : ')' ∉ s.chars position stop) : stop ≤ searchClose s position := by
  rw [searchClose_eq (Nat.le_trans h hlen), ← chars_append s h hlen,
    List.takeWhile_append_of_pos (bne_of_not_mem hmem), List.length_append, length_chars s position hlen]
  omega

/-- In a region with a closing parenthesis the search finds its first one, which cuts the text of the
region. -/
theorem searchClose_of_cut {front after : List Char} (h : position ≤ stop) (hlen : stop ≤ s.length)
    (hnot : ')' ∉ front) (hcut : s.chars position stop = front ++ ')' :: after) :
    searchClose s position = position + front.length ∧ searchClose s position < stop ∧
      s.chars position (searchClose s position) = front ∧
      s.chars (searchClose s position + 1) stop = after := by
  have hfind : searchClose s position = position + front.length := by
    rw [searchClose_eq (Nat.le_trans h hlen), ← chars_append s h hlen, hcut, List.append_assoc,
      List.cons_append, takeWhile_bne_append hnot]
  have hlength := congrArg List.length hcut
  rw [length_chars s position hlen, List.length_append, List.length_cons] at hlength
  refine ⟨hfind, by omega, ?_, ?_⟩
  · rw [hfind]
    apply chars_of_isPrefix
    rw [hcut]
    exact List.prefix_append front _
  · rw [hfind, Nat.add_assoc, ← drop_chars, hcut, ← List.drop_drop, List.drop_left]
    rfl

/-- What the machine remembers of its last search is the find of a search that starts at the
cursor, unless the cursor has passed it. -/
def Remembered (s : Source) (c : Config) : Prop :=
  ∀ close, c.nextClose = some close → c.position ≤ close → close = searchClose s c.position

theorem nextClose_eq {c : Config} (h : Remembered s c) :
    nextClose s c.nextClose c.position = searchClose s c.position := by
  unfold nextClose
  split
  · rename_i close hclose
    split
    · exact h close hclose ‹_›
    · rfl
  · rfl

/-- Moving on keeps what is remembered good. -/
theorem Remembered.of_le {c next : Config} (h : Remembered s c) (hlen : c.position ≤ s.length)
    (hfound : next.nextClose = c.nextClose) (hle : c.position ≤ next.position) :
    Remembered s next := by
  intro close hclose hposition
  have hfind := h close (hfound ▸ hclose) (Nat.le_trans hle hposition)
  rw [hfind]
  exact (searchClose_of_le hlen hle (hfind ▸ hposition)).symm

end ColumnFormula.Scan
