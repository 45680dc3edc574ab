import ColumnFormula.Proofs.Text.Offset
import ColumnFormula.Proofs.Text.Strip
import ColumnFormula.Source.Cutting
import Mathlib.Data.List.Sort

/-!
# Sources cut out by byte offsets are the sources that are scanned

A cutting goes from border to border: what it has gathered is what is left of the text in front of its
offset, with the places there, and its count is the length of that text (`Gathers`).  A run in front of a
find keeps this character by character, a find adds one to the count and nothing else; the offset behind
the find is again the size of the text that has been gone over, so the next cut is at a border as well.
Whatever the number of finds, and whatever stands between them, the pass ends with the characters of the
text that are no line controls and their indices (`Gathers.passAll`), and these are the only ones that fit
the text (`isIndexMap_iff`).
-/

namespace ColumnFormula

open Text

/-! ## Maps from what is left of a text into it -/

/-- The input is the text without its line controls, and the places say where in the text each of its
characters stands. -/
structure IsIndexMap (text input : List Char) (places : List Nat) : Prop where
  length_eq : input.length = places.length
  input_eq : input = text.filter fun c => !isLineControl c
  increasing : places.Pairwise (· < ·)
  stands : ∀ (i place : Nat) (c : Char),
    input[i]? = some c → places[i]? = some place → text[place]? = some c
  covers : ∀ (place : Nat) (c : Char),
    text[place]? = some c → isLineControl c = false → place ∈ places

theorem isIndexMap_strip (text : List Char) : IsIndexMap text (strip text) (keptIndices text) := by
  refine ⟨(length_keptIndices text).symm, rfl, pairwise_keptIndices text, ?_, ?_⟩
  · intro i place c hinput hplace
    have hi := (List.getElem?_eq_some_iff.1 hinput).1
    have hindex : sourceIndex text i = place := by
      rw [sourceIndex, List.getD_eq_getElem?_getD, hplace]
      rfl
    rw [← hindex, getElem?_sourceIndex hi, hinput]
  · intro place c hc hkept
    exact mem_keptIndices.2 ⟨c, hc, hkept⟩

namespace IsIndexMap

variable {text input : List Char} {places : List Nat}

theorem mem_places_iff (h : IsIndexMap text input places) {place : Nat} :
    place ∈ places ↔ place ∈ keptIndices text := by
  rw [mem_keptIndices]
  constructor
  · intro hmem
    obtain ⟨i, hi, hplace⟩ := List.getElem_of_mem hmem
    have hlength : i < input.length := h.length_eq ▸ hi
    have hstrip : input = strip text := h.input_eq
    have hleft : input[i] ∈ strip text := by
      rw [← hstrip]
      exact List.getElem_mem hlength
    refine ⟨input[i], ?_, isLineControl_of_mem_strip hleft⟩
    apply h.stands i place
    · exact List.getElem?_eq_getElem hlength
    · exact List.getElem?_eq_some_iff.2 ⟨hi, hplace⟩
  · rintro ⟨c, hc, hkept⟩
    exact h.covers place c hc hkept

theorem places_eq (h : IsIndexMap text input places) : places = keptIndices text := by
  apply List.Pairwise.eq_of_mem_iff h.increasing (pairwise_keptIndices text)
  intro place
  exact h.mem_places_iff

end IsIndexMap

/-- There is one such map from what is left of a text into the text. -/
theorem isIndexMap_iff {text input : List Char} {places : List Nat} :
    IsIndexMap text input places ↔ input = strip text ∧ places = keptIndices text := by
  constructor
  · intro h
    exact ⟨h.input_eq, h.places_eq⟩
  · rintro ⟨rfl, rfl⟩
    exact isIndexMap_strip text

namespace Source.Cutting

variable {c : Cutting} {front : List Char}

/-! ## What has been gathered -/

/-- What has been gathered is what is left of the text that has been gone over, and the count is the
length of that text. -/
structure Gathers (c : Cutting) (front : List Char) : Prop where
  input_eq : c.input.toList = strip front
  places_eq : c.places.toList = keptIndices front
  index_eq : c.index = front.length

theorem gathers_initial : initial.Gathers [] :=
  ⟨rfl, rfl, rfl⟩

theorem Gathers.keepChar (h : c.Gathers front) {d : Char} (hd : isLineControl d = false) :
    (c.keepChar d).Gathers (front ++ [d]) := by
  refine ⟨?_, ?_, ?_⟩
  · show (c.input.push d).toList = _
    rw [Array.toList_push, h.input_eq, strip_append, strip_cons_of_kept hd, strip_nil]
  · show (c.places.push c.index).toList = _
    rw [Array.toList_push, h.places_eq, h.index_eq, keptIndices_append, keptIndices_kept hd]
    rfl
  · show c.index + 1 = _
    rw [h.index_eq, List.length_append]
    rfl

theorem Gathers.foldl_keepChar {run : List Char} (h : c.Gathers front)
    (hrun : ∀ d ∈ run, isLineControl d = false) :
    (run.foldl Cutting.keepChar c).Gathers (front ++ run) := by
  induction run generalizing c front with
  | nil =>
    rw [List.append_nil]
    exact h
  | cons d run ih =>
    have hmore := ih (h.keepChar (hrun d List.mem_cons_self)) fun e he =>
      hrun e (List.mem_cons_of_mem d he)
    rw [List.append_assoc] at hmore
    exact hmore

/-- A line control is counted and not kept. -/
theorem Gathers.control (h : c.Gathers front) {d : Char} (hd : isLineControl d = true)
    (keptFrom : Nat) :
    Gathers { c with index := c.index + 1, keptFrom := keptFrom } (front ++ [d]) := by
  refine ⟨?_, ?_, ?_⟩
  · show c.input.toList = _
    rw [h.input_eq, strip_append, strip_cons_of_control hd, strip_nil, List.append_nil]
  · show c.places.toList = _
    rw [h.places_eq, keptIndices_append, keptIndices_control hd, List.map_nil, List.append_nil]
  · show c.index + 1 = _
    rw [h.index_eq, List.length_append]
    rfl

/-! ## From border to border -/

variable {text : String}

/-- A run from the last border on is cut out and kept. -/
theorem Gathers.keep {before run after : String} (h : c.Gathers before.toList)
    (hfrom : c.keptFrom = before.utf8ByteSize) (htext : text = before ++ run ++ after)
    (hrun : ∀ d ∈ run.toList, isLineControl d = false) :
    slice? text c.keptFrom (before ++ run).utf8ByteSize = some run ∧
      (c.keep run).Gathers (before ++ run).toList := by
  constructor
  · rw [slice?_eq_some_iff, hfrom]
    exact ⟨before, after, htext, rfl, String.utf8ByteSize_append.symm⟩
  · rw [String.toList_append]
    exact h.foldl_keepChar hrun

/-- Going over a find leads from a border to the border behind it. -/
theorem Gathers.passOver {before run after : String} {d : Char} (h : c.Gathers before.toList)
    (hfrom : c.keptFrom = before.utf8ByteSize)
    (htext : text = before ++ run ++ String.singleton d ++ after)
    (hrun : ∀ e ∈ run.toList, isLineControl e = false) (hd : isLineControl d = true) :
    let behind := before ++ run ++ String.singleton d
    ∃ passed, c.passOver text ⟨(before ++ run).utf8ByteSize, behind.utf8ByteSize⟩ = some passed ∧
      passed.keptFrom = behind.utf8ByteSize ∧ passed.Gathers behind.toList := by
  intro behind
  rw [String.append_assoc] at htext
  obtain ⟨hslice, hkept⟩ := h.keep hfrom htext hrun
  refine ⟨{ c.keep run with
    index := (c.keep run).index + 1
    keptFrom := behind.utf8ByteSize }, ?_, rfl, ?_⟩
  · unfold Cutting.passOver
    rw [hslice]
    rfl
  · show Gathers _ (before ++ run ++ String.singleton d).toList
    rw [String.toList_append, String.toList_singleton]
    exact hkept.control hd _

theorem passAll_cons (c : Cutting) (text : String) (first : Found) (more : List Found) :
    c.passAll text (first :: more) =
      (c.passOver text first).bind fun passed => passed.passAll text more := by
  unfold passAll
  rw [List.foldlM_cons]
  exact Option.bind_assoc _ _ _

/-- From a border on, everything is gathered that is left of the text. -/
theorem Gathers.passAll {before rest : String} {found : List Found} (h : c.Gathers before.toList)
    (hfrom : c.keptFrom = before.utf8ByteSize) (htext : text = before ++ rest)
    (hfound : Successive (Occurs isLineControl text) before.utf8ByteSize found) :
    ∃ gathered, c.passAll text found = some gathered ∧ gathered.Gathers text.toList := by
  -- The finds are followed one by one: behind each of them there is a border again, with less text to
  -- come, and only from a border does the next find say what the run in front of it has none of.
  generalize hstart : before.utf8ByteSize = start at hfound
  induction hfound generalizing c before rest with
  | none hnone =>
    subst hstart htext
    have hsplit : before ++ rest = before ++ rest ++ "" := String.append_empty.symm
    obtain ⟨hslice, hkept⟩ := h.keep hfrom hsplit (not_inClass_of_forall hnone)
    refine ⟨c.keep rest, ?_, hkept⟩
    show c.finish (before ++ rest) = _
    unfold finish
    rw [hslice]
    rfl
  | next hoccurs hle hfirst _ ih =>
    subst hstart htext
    obtain ⟨run, d, after, rfl, hd, hrun, rfl⟩ := exists_first hoccurs hle hfirst
    have hsplit : before ++ (run ++ String.singleton d ++ after) =
        before ++ run ++ String.singleton d ++ after := by
      simp only [String.append_assoc]
    obtain ⟨passed, hpassed, hbehind, hgathers⟩ := h.passOver hfrom hsplit hrun hd
    obtain ⟨gathered, hmore, hall⟩ := ih hgathers hbehind hsplit rfl
    refine ⟨gathered, ?_, hall⟩
    rw [passAll_cons, hpassed]
    exact hmore

/-- Every search for the line controls leads to what is left of the expression, and to where that
stands in it. -/
theorem exists_ofSearch? {search : String → List Found} (hsearch : Searches isLineControl search)
    (expression : String) :
    ∃ c, ofSearch? search expression = some c ∧ c.Gathers expression.toList := by
  have hfrom : initial.keptFrom = "".utf8ByteSize := rfl
  exact gathers_initial.passAll hfrom String.empty_append.symm (hsearch expression)

/-- The characters and the places, put together again, are the marks of the source. -/
theorem Gathers.marks_eq {expression : String} (h : c.Gathers expression.toList) (offset : Nat) :
    ofExpression expression offset = ⟨expression, offset, c.marks⟩ := by
  unfold ofExpression marks
  congr 1
  apply Array.toList_inj.1
  rw [Array.toList_zipWith, h.input_eq, h.places_eq, ← map_char_kept 0, keptIndices,
    ← map_place_kept, List.zipWith_map, List.zipWith_self, marksOf_eq]
  exact (List.map_id _).symm

end Source.Cutting

open Source

/-- **Places found by byte offsets.**  Whatever search finds the line controls of an expression one after
the other, cutting the expression at the finds is refused nowhere, and gathers a map from the characters
that are left to their places: the same as keeping, of all the characters each with its index, those that
are no line controls, and the same as the source that is scanned. -/
theorem cutting_isIndexMap {search : String → List Found} (hsearch : Searches isLineControl search)
    (expression : String) (offset : Nat) :
    ∃ c, Cutting.ofSearch? search expression = some c ∧
      IsIndexMap expression.toList c.input.toList c.places.toList ∧
      c.input.toList.zip c.places.toList =
        (expression.toList.zipIdx.filter fun m => !isLineControl m.1) ∧
      ofExpression expression offset = ⟨expression, offset, c.marks⟩ := by
  obtain ⟨c, hc, hgathers⟩ := Cutting.exists_ofSearch? hsearch expression
  refine ⟨c, hc, ?_, ?_, hgathers.marks_eq offset⟩
  · exact isIndexMap_iff.2 ⟨hgathers.input_eq, hgathers.places_eq⟩
  · rw [hgathers.input_eq, hgathers.places_eq, zip_strip_keptIndices]

/-- Line controls in front, next to each other and at the end, among characters of one to four bytes. -/
theorem cutting_isIndexMap_wide :
    Searches isLineControl (occurrences isLineControl) ∧
      ∃ c, Cutting.ofSearch? (occurrences isLineControl) "\té\r\n😀b日\n" = some c ∧
        c.input.toList = ['é', '😀', 'b', '日'] ∧ c.places.toList = [1, 4, 5, 6] ∧
        ofExpression "\té\r\n😀b日\n" 7 = ⟨"\té\r\n😀b日\n", 7, c.marks⟩ := by
  have hsearch := searches_occurrences isLineControl
  obtain ⟨c, hc, hmap, _, hsource⟩ := cutting_isIndexMap hsearch "\té\r\n😀b日\n" 7
  obtain ⟨hinput, hplaces⟩ := isIndexMap_iff.1 hmap
  exact ⟨hsearch, c, hc, hinput.trans (by decide), hplaces.trans (by decide), hsource⟩

end ColumnFormula
