import ColumnFormula.Text.Offset

/-!
# Texts cut by byte offsets

A byte offset that is a border of characters is the size of what stands in front of it, so a slice is
what is left of a text between a front and a back (`slice?_eq_some_iff`), and two cuts of one text compare
as their offsets do (`exists_run`).  From a border on, a search goes over characters that are not of the
class until it is at its next find (`exists_first`) or at the end of the text (`not_inClass_of_forall`).
`occurrences` is such a search (`searches_occurrences`).
-/

namespace ColumnFormula.Text

/-! ## Slices -/

theorem pos?_eq_some_iff {text : String} {offset : Nat} {p : text.Pos} :
    text.pos? ⟨offset⟩ = some p ↔ p.offset.byteIdx = offset := by
  unfold String.pos? String.Slice.pos?
  rw [Option.map_eq_some_iff]
  constructor
  · rintro ⟨q, hq, rfl⟩
    split at hq
    · obtain rfl := Option.some.inj hq
      rfl
    · cases hq
  · rintro rfl
    refine ⟨p.toSlice, ?_, by simp⟩
    have hvalid := String.Pos.Raw.isValidForSlice_eq_true_iff.2 p.isValid.toSlice
    rw [dif_pos hvalid]
    apply congrArg some
    apply String.Slice.Pos.ext
    rfl

/-- What stands between two byte offsets of a text stands in it behind a front of the one size, and
reaches as far as the other. -/
theorem slice?_eq_some_iff {text part : String} {start stop : Nat} :
    slice? text start stop = some part ↔
      ∃ before after, text = before ++ part ++ after ∧ before.utf8ByteSize = start ∧
        before.utf8ByteSize + part.utf8ByteSize = stop := by
  unfold slice? String.slice?
  simp only [Option.bind_eq_bind, Option.bind_eq_some_iff, pos?_eq_some_iff, Option.pure_def,
    Option.some.injEq]
  constructor
  · rintro ⟨first, hfirst, last, hlast, cut, hcut, hpart⟩
    split at hcut
    · rename_i hle
      obtain rfl := Option.some.inj hcut
      obtain ⟨before, after, hfront, hback⟩ := String.copy_slice_eq_iff_splits.1 ⟨hle, hpart⟩
      refine ⟨before, after, hback.eq_append, ?_, ?_⟩
      · rw [← hfirst, hfront.offset_eq_rawEndPos]
        rfl
      · rw [← hlast, hback.offset_eq_rawEndPos, ← String.utf8ByteSize_append]
        rfl
    · cases hcut
  · rintro ⟨before, after, htext, hstart, hstop⟩
    have hfront := String.Pos.splits_ofEqAppend (htext.trans String.append_assoc)
    have hback := String.Pos.splits_ofEqAppend htext
    obtain ⟨hle, hpart⟩ := String.copy_slice_eq_iff_splits.2 ⟨before, after, hfront, hback⟩
    refine ⟨_, ?_, _, ?_, _, dif_pos hle, hpart⟩
    · rw [hfront.offset_eq_rawEndPos]
      exact hstart
    · rw [hback.offset_eq_rawEndPos, ← hstop, ← String.utf8ByteSize_append]
      rfl

example : slice? "aéb" 1 3 = some "é" := by decide
example : slice? "aéb" 1 2 = none := by decide

/-- Of two cuts through one text, the one further on has a run more in front of it. -/
theorem exists_run {a b x y : String} (h : a ++ x = b ++ y)
    (hle : a.utf8ByteSize ≤ b.utf8ByteSize) : ∃ run, b = a ++ run ∧ x = run ++ y := by
  have hfront := String.Pos.splits_ofEqAppend (s := a ++ x) rfl
  have hback := String.Pos.splits_ofEqAppend h
  apply (hfront.le_iff_exists_eq_append hback).1
  rw [String.Pos.le_iff, String.Pos.Raw.le_iff, hfront.offset_eq_rawEndPos,
    hback.offset_eq_rawEndPos]
  exact hle

/-! ## What a search goes over -/

variable {inClass : Char → Bool}

theorem exists_split_of_mem {run : String} {c : Char} (h : c ∈ run.toList) :
    ∃ a b, run = a ++ String.singleton c ++ b := by
  obtain ⟨a, b, hrun⟩ := List.append_of_mem h
  refine ⟨String.ofList a, String.ofList b, ?_⟩
  rw [← String.ofList_toList (s := run), hrun, String.ofList_append, String.ofList_cons,
    String.append_assoc]

/-- A character of the class that stands between a front and a back is found there. -/
theorem exists_occurs (front back : String) {run : String} {c : Char} (hmem : c ∈ run.toList)
    (hc : inClass c = true) :
    ∃ found, Occurs inClass (front ++ run ++ back) found ∧ front.utf8ByteSize ≤ found.start ∧
      found.start < front.utf8ByteSize + run.utf8ByteSize := by
  obtain ⟨a, b, rfl⟩ := exists_split_of_mem hmem
  have hpos := c.utf8Size_pos
  refine ⟨_, ⟨front ++ a, c, b ++ back, by simp only [String.append_assoc], hc, rfl⟩, ?_, ?_⟩
  · simp only [String.utf8ByteSize_append]
    omega
  · simp only [String.utf8ByteSize_append, String.utf8ByteSize_singleton]
    omega

/-- Behind the last find stands no character of the class. -/
theorem not_inClass_of_forall {front rest : String}
    (h : ∀ found, Occurs inClass (front ++ rest) found → found.start < front.utf8ByteSize) :
    ∀ c ∈ rest.toList, inClass c = false := by
  refine fun c hmem => Bool.eq_false_iff.2 fun hc => ?_
  obtain ⟨found, hoccurs, hle, _⟩ := exists_occurs front "" hmem hc
  rw [String.append_empty] at hoccurs
  have := h found hoccurs
  omega

/-- The first find from a border on is a character of the class behind a run that has none. -/
theorem exists_first {front rest : String} {first : Found}
    (hoccurs : Occurs inClass (front ++ rest) first) (hstart : front.utf8ByteSize ≤ first.start)
    (hfirst : ∀ found, Occurs inClass (front ++ rest) found →
      front.utf8ByteSize ≤ found.start → first.start ≤ found.start) :
    ∃ run c after, rest = run ++ String.singleton c ++ after ∧ inClass c = true ∧
      (∀ d ∈ run.toList, inClass d = false) ∧
      first = ⟨(front ++ run).utf8ByteSize, (front ++ run ++ String.singleton c).utf8ByteSize⟩ := by
  obtain ⟨before, c, after, htext, hc, rfl⟩ := hoccurs
  rw [String.append_assoc] at htext
  obtain ⟨run, rfl, hrest⟩ := exists_run htext hstart
  rw [← String.append_assoc] at hrest
  refine ⟨run, c, after, hrest, hc, ?_, ?_⟩
  · refine fun d hmem => Bool.eq_false_iff.2 fun hd => ?_
    obtain ⟨found, hfound, hle, hlt⟩ := exists_occurs front (String.singleton c ++ after) hmem hd
    have hsplit : front ++ rest = front ++ run ++ (String.singleton c ++ after) := by
      rw [hrest]
      simp only [String.append_assoc]
    rw [← hsplit] at hfound
    have := hfirst found hfound hle
    simp only [String.utf8ByteSize_append] at this
    omega
  · simp only [String.utf8ByteSize_append, String.utf8ByteSize_singleton]

/-! ## A search that is one -/

/-- A search may begin further back if nothing begins in between. -/
theorem Successive.of_le {occurs : Found → Prop} {start later : Nat} {found : List Found}
    (h : Successive occurs later found) (hle : start ≤ later)
    (hskip : ∀ f, occurs f → start ≤ f.start → later ≤ f.start) :
    Successive occurs start found := by
  cases h with
  | none hnone =>
    refine .none fun f hf => ?_
    have := hnone f hf
    have := hskip f hf
    omega
  | next hoccurs hstart hfirst hmore =>
    exact .next hoccurs (by omega) (fun f hf hstart => hfirst f hf (hskip f hf hstart)) hmore

/-- Nothing begins at a character that is not of the class. -/
theorem le_start_of_not_inClass {front rest : String} {c : Char} (hc : inClass c = false)
    {found : Found} (hoccurs : Occurs inClass (front ++ (String.singleton c ++ rest)) found)
    (hstart : front.utf8ByteSize ≤ found.start) :
    front.utf8ByteSize + c.utf8Size ≤ found.start := by
  obtain ⟨before, d, after, htext, hd, rfl⟩ := hoccurs
  rw [String.append_assoc] at htext
  obtain ⟨run, rfl, hrest⟩ := exists_run htext hstart
  -- The find is of another character than `c`, so `c` stands in front of it.
  cases hrun : run.toList with
  | nil =>
    obtain rfl := String.toList_eq_nil_iff.1 hrun
    rw [String.empty_append, String.singleton_append_inj] at hrest
    rw [hrest.1, hd] at hc
    cases hc
  | cons e more =>
    have hsplit : run = String.singleton e ++ String.ofList more := by
      rw [← String.ofList_cons, ← hrun, String.ofList_toList]
    rw [hsplit, String.append_assoc, String.singleton_append_inj] at hrest
    rw [hsplit, hrest.1]
    simp only [String.utf8ByteSize_append, String.utf8ByteSize_singleton]
    omega

theorem successive_occurrencesFrom (front : String) (rest : List Char) :
    Successive (Occurs inClass (front ++ String.ofList rest)) front.utf8ByteSize
      (occurrencesFrom inClass front.utf8ByteSize rest) := by
  induction rest generalizing front with
  | nil =>
    refine .none ?_
    rintro found ⟨before, c, after, htext, _, rfl⟩
    have hpos := c.utf8Size_pos
    have hsize := congrArg String.utf8ByteSize htext
    simp only [String.utf8ByteSize_append, String.utf8ByteSize_singleton, String.ofList_nil,
      String.utf8ByteSize_empty] at hsize
    show before.utf8ByteSize < front.utf8ByteSize
    omega
  | cons c rest ih =>
    have hmore := ih (front ++ String.singleton c)
    rw [String.utf8ByteSize_append, String.utf8ByteSize_singleton, String.append_assoc] at hmore
    rw [String.ofList_cons, occurrencesFrom]
    by_cases hc : inClass c = true
    · rw [if_pos hc]
      exact .next ⟨front, c, _, String.append_assoc.symm, hc, rfl⟩ (Nat.le_refl _)
        (fun _ _ hstart => hstart) hmore
    · rw [if_neg hc]
      exact hmore.of_le (Nat.le_add_right _ _) fun _ =>
        le_start_of_not_inClass (Bool.eq_false_iff.2 hc)

/-- Going over a text character by character finds the characters of a class one after the other. -/
theorem searches_occurrences (inClass : Char → Bool) : Searches inClass (occurrences inClass) := by
  intro text
  have h : Successive (Occurs inClass ("" ++ String.ofList text.toList)) "".utf8ByteSize
      (occurrencesFrom inClass "".utf8ByteSize text.toList) := successive_occurrencesFrom "" _
  rwa [String.ofList_toList, String.empty_append] at h

end ColumnFormula.Text
