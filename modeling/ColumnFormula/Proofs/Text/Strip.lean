import ColumnFormula.Source

/-!
# Texts without their line controls

What is left of a text when the line controls are taken out, and where each character that is left
stood.  `exists_split` is the one fact that everything about places comes from: before the place of
the `i`-th character that is left stand exactly the `i` characters left before it, and line
controls.  So places grow (`sourceIndex_lt_sourceIndex`), the text has at each of them the character
that is left (`getElem?_sourceIndex`), and a stretch of the text that begins and ends at places of
characters that are left is the stretch between them of what is left (`strip_slice`).
-/

namespace ColumnFormula

/-- What words hold of a span. -/
def Span.wrap (span : Span) : Span :=
  ⟨ColumnFormula.wrap span.start, ColumnFormula.wrap span.stop⟩

namespace Text

/-- A text without its line controls. -/
def strip (text : List Char) : List Char :=
  text.filter fun c => !isLineControl c

/-- The indices of the characters of a text that are no line controls. -/
def keptIndices (text : List Char) : List Nat :=
  (text.zipIdx.filter fun m => !isLineControl m.1).map (·.2)

/-- The index in a text of the `i`-th character that is left without the line controls. -/
def sourceIndex (text : List Char) (i : Nat) : Nat :=
  (keptIndices text).getD i 0

/-- Where a stretch of a text without its line controls stands when the text itself starts at
`offset`.  It ends behind its last character, whatever is taken out behind that. -/
def sourceSpan (text : List Char) (offset : Nat) (span : Span) : Span :=
  ⟨offset + sourceIndex text span.start, offset + sourceIndex text (span.stop - 1) + 1⟩

/-- Where the stretch is reported to stand. -/
def reportedSpan (text : List Char) (offset : Nat) (span : Span) : Span :=
  (sourceSpan text offset span).wrap

@[simp] theorem strip_nil : strip [] = [] := rfl

theorem strip_append (a b : List Char) : strip (a ++ b) = strip a ++ strip b :=
  List.filter_append a b

theorem strip_cons_of_kept {c : Char} (h : isLineControl c = false) (rest : List Char) :
    strip (c :: rest) = c :: strip rest := by
  simp [strip, h]

theorem strip_cons_of_control {c : Char} (h : isLineControl c = true) (rest : List Char) :
    strip (c :: rest) = strip rest := by
  simp [strip, h]

theorem isLineControl_of_mem_strip {c : Char} {text : List Char} (h : c ∈ strip text) :
    isLineControl c = false := by
  simpa using (List.mem_filter.1 h).2

theorem strip_eq_self {text : List Char} (h : ∀ c ∈ text, isLineControl c = false) :
    strip text = text := by
  rw [strip, List.filter_eq_self]
  intro c hc
  rw [h c hc]
  rfl

@[simp] theorem strip_strip (text : List Char) : strip (strip text) = strip text :=
  strip_eq_self fun _ hc => isLineControl_of_mem_strip hc

end Text

open Text

namespace Source

/-! ## The marks of a source -/

theorem map_char_kept (place : Nat) (text : List Char) :
    (kept place text).map (·.char) = strip text := by
  induction text generalizing place with
  | nil => rfl
  | cons c rest ih =>
    rw [kept]
    split
    · rename_i h
      rw [ih, strip_cons_of_control h]
    · rename_i h
      rw [List.map_cons, ih, strip_cons_of_kept (Bool.eq_false_iff.2 h)]

theorem map_place_kept (place : Nat) (text : List Char) :
    (kept place text).map (·.place) =
      ((text.zipIdx place).filter fun m => !isLineControl m.1).map (·.2) := by
  induction text generalizing place with
  | nil => rfl
  | cons c rest ih =>
    rw [kept, List.zipIdx_cons]
    split
    · rename_i h
      rw [ih, List.filter_cons_of_neg (by simp [h])]
    · rename_i h
      rw [List.map_cons, ih, List.filter_cons_of_pos (by simp [h]), List.map_cons]

/-- A character that is kept has in front of its place the characters kept before it, and line
controls. -/
theorem kept_split {text : List Char} {place i : Nat} {mark : Mark}
    (h : (kept place text)[i]? = some mark) :
    ∃ before after, text = before ++ mark.char :: after ∧ isLineControl mark.char = false ∧
      place + before.length = mark.place ∧ strip before = (strip text).take i := by
  induction text generalizing place i with
  | nil => simp [kept] at h
  | cons c rest ih =>
    rw [kept] at h
    by_cases hc : isLineControl c = true
    · rw [if_pos hc] at h
      obtain ⟨before, after, rfl, hmark, hplace, hstrip⟩ := ih h
      refine ⟨c :: before, after, rfl, hmark, ?_, ?_⟩
      · rw [List.length_cons]
        omega
      · rw [strip_cons_of_control hc, hstrip, strip_cons_of_control hc]
    · have hkept : isLineControl c = false := Bool.eq_false_iff.2 hc
      rw [if_neg hc] at h
      cases i with
      | zero =>
        rw [List.getElem?_cons_zero, Option.some.injEq] at h
        subst h
        exact ⟨[], rest, rfl, hkept, rfl, rfl⟩
      | succ i =>
        rw [List.getElem?_cons_succ] at h
        obtain ⟨before, after, rfl, hmark, hplace, hstrip⟩ := ih h
        refine ⟨c :: before, after, rfl, hmark, ?_, ?_⟩
        · rw [List.length_cons]
          omega
        · rw [strip_cons_of_kept hkept, strip_cons_of_kept hkept, hstrip, List.take_succ_cons]

variable (expression : String) (offset : Nat)

theorem chars_ofExpression :
    (ofExpression expression offset).chars 0 (ofExpression expression offset).length =
      strip expression.toList := by
  rw [← map_char_kept 0, length_ofExpression]
  simp [chars, ofExpression, marksOf_eq]

theorem place_ofExpression (position : Nat) :
    (ofExpression expression offset).place position =
      sourceIndex expression.toList position := by
  rw [sourceIndex, keptIndices, ← map_place_kept, List.getD_eq_getElem?_getD, List.getElem?_map]
  simp [place, ofExpression, marksOf_eq]

theorem report_ofExpression (position : Nat) :
    (ofExpression expression offset).report position =
      wrap (offset + sourceIndex expression.toList position) := by
  rw [report, place_ofExpression]
  rfl

theorem span_ofExpression (start stop : Nat) :
    (ofExpression expression offset).span start stop =
      reportedSpan expression.toList offset ⟨start, stop⟩ := by
  rw [span, report_ofExpression, report_ofExpression, wrap_wrap_add]
  rfl

end Source

namespace Text

/-! ## Places -/

/-- The `i`-th character that is left cuts the text at its place. -/
theorem exists_split (text : List Char) {i : Nat} (h : i < (strip text).length) :
    ∃ before c after, text = before ++ c :: after ∧ isLineControl c = false ∧
      before.length = sourceIndex text i ∧ strip before = (strip text).take i := by
  have hlength : i < (Source.kept 0 text).length := by
    rw [← Source.map_char_kept 0, List.length_map] at h
    exact h
  have hmark := List.getElem?_eq_getElem hlength
  obtain ⟨before, after, htext, hkept, hplace, hstrip⟩ := Source.kept_split hmark
  refine ⟨before, _, after, htext, hkept, ?_, hstrip⟩
  rw [sourceIndex, keptIndices, ← Source.map_place_kept, List.getD_eq_getElem?_getD,
    List.getElem?_map, hmark, Option.map_some, Option.getD_some, ← hplace, Nat.zero_add]

/-- The cut goes through what is left as well. -/
theorem exists_cut (text : List Char) {i : Nat} (h : i < (strip text).length) :
    ∃ before c after, text = before ++ c :: after ∧ before.length = sourceIndex text i ∧
      strip text = strip before ++ c :: strip after ∧ (strip before).length = i := by
  obtain ⟨before, c, after, htext, hc, hplace, hstrip⟩ := exists_split text h
  refine ⟨before, c, after, htext, hplace, ?_, ?_⟩
  · rw [htext, strip_append, strip_cons_of_kept hc]
  · rw [hstrip, List.length_take]
    omega

/-- The text has at the place of a character that is left that character. -/
theorem getElem?_sourceIndex {text : List Char} {i : Nat} (h : i < (strip text).length) :
    text[sourceIndex text i]? = (strip text)[i]? := by
  obtain ⟨before, c, after, htext, hplace, hsplit, hlength⟩ := exists_cut text h
  rw [← hplace, hsplit, ← hlength, List.getElem?_append_right (Nat.le_refl _), htext,
    List.getElem?_append_right (Nat.le_refl _), Nat.sub_self, Nat.sub_self]
  rfl

/-- In a text without line controls every character stands at its own index. -/
theorem sourceIndex_strip {text : List Char} {i : Nat} (h : i < (strip text).length) :
    sourceIndex (strip text) i = i := by
  obtain ⟨before, c, after, htext, _, hplace, hstrip⟩ :=
    exists_split (strip text) (by rwa [strip_strip])
  have hbefore : strip before = before := by
    apply strip_eq_self
    intro d hd
    have hmem : d ∈ strip text := by rw [htext]; exact List.mem_append_left _ hd
    exact isLineControl_of_mem_strip hmem
  rw [hbefore, strip_strip] at hstrip
  rw [← hplace, hstrip, List.length_take]
  omega

theorem length_keptIndices (text : List Char) : (keptIndices text).length = (strip text).length := by
  rw [keptIndices, ← Source.map_place_kept, List.length_map, ← Source.map_char_kept 0,
    List.length_map]

/-- The places of a joined text are those of the text in front, and those of the text behind it,
each further on by the whole length of the text in front. -/
theorem keptIndices_append (a b : List Char) :
    keptIndices (a ++ b) = keptIndices a ++ (keptIndices b).map (a.length + ·) := by
  rw [keptIndices, List.zipIdx_append, List.filter_append, List.map_append, Nat.zero_add,
    List.zipIdx_eq_map_add (i := a.length), List.filter_map, List.map_map]
  simp only [keptIndices, List.map_map]
  rfl

theorem mem_keptIndices {text : List Char} {place : Nat} :
    place ∈ keptIndices text ↔ ∃ c, text[place]? = some c ∧ isLineControl c = false := by
  simp [keptIndices, List.mem_zipIdx_iff_getElem?]

theorem keptIndices_control {c : Char} (h : isLineControl c = true) : keptIndices [c] = [] := by
  simp [keptIndices, h]

theorem keptIndices_kept {c : Char} (h : isLineControl c = false) : keptIndices [c] = [0] := by
  simp [keptIndices, h]

/-- What is left of a text, and where it stands, are the two sides of the characters of the text that are
left when each comes with its index. -/
theorem zip_strip_keptIndices (text : List Char) :
    (strip text).zip (keptIndices text) = text.zipIdx.filter fun m => !isLineControl m.1 := by
  have hstrip : strip text = (text.zipIdx.filter fun m => !isLineControl m.1).map (·.1) := by
    conv => lhs; rw [← List.zipIdx_map_fst 0 text]
    rw [strip, List.filter_map]
    rfl
  rw [hstrip, keptIndices, List.zip_map, List.zip_eq_zipWith, List.zipWith_self, List.map_map]
  exact List.map_id _

theorem sourceIndex_append_left {a : List Char} (b : List Char) {i : Nat}
    (h : i < (strip a).length) : sourceIndex (a ++ b) i = sourceIndex a i := by
  rw [← length_keptIndices] at h
  rw [sourceIndex, sourceIndex, keptIndices_append, List.getD_eq_getElem?_getD,
    List.getD_eq_getElem?_getD, List.getElem?_append_left h]

theorem sourceIndex_append_right (a : List Char) {b : List Char} {i : Nat}
    (h : i < (strip b).length) :
    sourceIndex (a ++ b) ((strip a).length + i) = a.length + sourceIndex b i := by
  rw [← length_keptIndices] at h ⊢
  rw [sourceIndex, sourceIndex, keptIndices_append, List.getD_eq_getElem?_getD,
    List.getD_eq_getElem?_getD, List.getElem?_append_right (Nat.le_add_right _ _),
    Nat.add_sub_cancel_left, List.getElem?_map, List.getElem?_eq_getElem h]
  rfl

theorem sourceIndex_lt {text : List Char} {i : Nat} (h : i < (strip text).length) :
    sourceIndex text i < text.length := by
  obtain ⟨before, c, after, htext, _, hplace, _⟩ := exists_split text h
  rw [← hplace]
  conv => rhs; rw [htext]
  rw [List.length_append, List.length_cons]
  omega

/-- The places of the characters that are left, in order. -/
theorem pairwise_keptIndices (text : List Char) : (keptIndices text).Pairwise (· < ·) := by
  have hsub : (keptIndices text).Sublist (text.zipIdx.map (·.2)) := List.filter_sublist.map _
  rw [List.zipIdx_map_snd] at hsub
  exact List.Pairwise.sublist hsub List.pairwise_lt_range'

theorem sourceIndex_eq_getElem {text : List Char} {i : Nat} (h : i < (keptIndices text).length) :
    sourceIndex text i = (keptIndices text)[i] := by
  rw [sourceIndex, List.getD_eq_getElem?_getD, List.getElem?_eq_getElem h, Option.getD_some]

/-- Places grow. -/
theorem sourceIndex_lt_sourceIndex {text : List Char} {i j : Nat} (hlt : i < j)
    (h : j < (strip text).length) : sourceIndex text i < sourceIndex text j := by
  rw [← length_keptIndices] at h
  have hi : i < (keptIndices text).length := Nat.lt_trans hlt h
  rw [sourceIndex_eq_getElem hi, sourceIndex_eq_getElem h]
  exact List.pairwise_iff_getElem.1 (pairwise_keptIndices text) i j hi h hlt

theorem sourceIndex_le {text : List Char} {i j : Nat} (hle : i ≤ j)
    (h : j < (strip text).length) : sourceIndex text i ≤ sourceIndex text j := by
  rcases Nat.lt_or_eq_of_le hle with hlt | rfl
  · exact Nat.le_of_lt (sourceIndex_lt_sourceIndex hlt h)
  · exact Nat.le_refl _

/-- A stretch that is not empty stands in the text. -/
theorem sourceSpan_within {text : List Char} (offset : Nat) {a : Span} (ha : a.start < a.stop)
    (hle : a.stop ≤ (strip text).length) :
    offset ≤ (sourceSpan text offset a).start ∧
      (sourceSpan text offset a).start < (sourceSpan text offset a).stop ∧
      (sourceSpan text offset a).stop ≤ offset + text.length := by
  have hgrow : sourceIndex text a.start ≤ sourceIndex text (a.stop - 1) :=
    sourceIndex_le (by omega) (by omega)
  have hlast : sourceIndex text (a.stop - 1) < text.length := sourceIndex_lt (by omega)
  show offset ≤ offset + sourceIndex text a.start ∧
    offset + sourceIndex text a.start < offset + sourceIndex text (a.stop - 1) + 1 ∧
    offset + sourceIndex text (a.stop - 1) + 1 ≤ offset + text.length
  omega

/-- A stretch is reported where it stands if words hold all positions of the text. -/
theorem reportedSpan_eq {text : List Char} {offset : Nat} {a : Span} (ha : a.start < a.stop)
    (hle : a.stop ≤ (strip text).length) (hfits : offset + text.length < positionLimit) :
    reportedSpan text offset a = sourceSpan text offset a := by
  obtain ⟨_, hlt, hstop⟩ := sourceSpan_within offset ha hle
  rw [reportedSpan, Span.wrap, wrap_of_lt (by omega), wrap_of_lt (by omega)]

/-- A stretch of what is left comes from the stretch of the text between the places of its first and
its last character, and what is around it from what is around that. -/
theorem strip_slice {text front own back : List Char} (h : strip text = front ++ own ++ back)
    (hne : own ≠ []) :
    ∃ left middle right, text = left ++ middle ++ right ∧
      strip left = front ∧ strip middle = own ∧ strip right = back ∧
      left.length = sourceIndex text front.length ∧
      left.length + middle.length = sourceIndex text (front.length + own.length - 1) + 1 ∧
      (∀ c ∈ middle.head?, isLineControl c = false) ∧
      (∀ c ∈ middle.getLast?, isLineControl c = false) := by
  have hpos := List.length_pos_iff.2 hne
  have hlength : (strip text).length = front.length + own.length + back.length := by
    rw [h, List.length_append, List.length_append]
  obtain ⟨left, c, rest, htext, hc, hplace, hstrip⟩ :=
    exists_split text (i := front.length) (by omega)
  obtain ⟨upTo, d, right, htext', hd, hplace', hstrip'⟩ :=
    exists_split text (i := front.length + own.length - 1) (by omega)
  have hleft : strip left = front := by rw [hstrip, h, List.append_assoc, List.take_left]
  obtain ⟨between, hupTo⟩ : left <+: upTo := by
    refine List.prefix_of_prefix_length_le ⟨c :: rest, htext.symm⟩ ⟨d :: right, htext'.symm⟩ ?_
    rw [hplace, hplace']
    exact sourceIndex_le (by omega) (by omega)
  have hrest : c :: rest = between ++ d :: right := by
    rw [htext, ← hupTo, List.append_assoc] at htext'
    exact List.append_cancel_left htext'
  have hsplit : text = left ++ (between ++ [d]) ++ right := by
    rw [htext, hrest]
    simp
  -- Only the two together are known to be `own ++ back`; the length says where the one ends.
  have hown : (strip (between ++ [d])).length = own.length := by
    have hlonger := congrArg List.length hstrip'
    rw [← hupTo, strip_append, hleft] at hlonger
    simp only [List.length_append, List.length_take] at hlonger
    rw [strip_append, strip_cons_of_kept hd, List.length_append, strip_nil, List.length_singleton]
    omega
  have hcut : strip (between ++ [d]) ++ strip right = own ++ back := by
    have hall := h
    rw [hsplit, strip_append, strip_append, hleft, List.append_assoc, List.append_assoc] at hall
    exact List.append_cancel_left hall
  obtain ⟨hmiddle, hright⟩ := List.append_inj hcut hown
  refine ⟨left, between ++ [d], right, hsplit, hleft, hmiddle, hright, hplace, ?_, ?_, ?_⟩
  · rw [← hplace', ← hupTo]
    simp only [List.length_append, List.length_singleton]
    omega
  · intro e he
    have hhead : (between ++ [d]).head? = some c := by
      cases between with
      | nil =>
        obtain ⟨rfl, _⟩ := List.cons.inj hrest
        rfl
      | cons f between =>
        obtain ⟨rfl, _⟩ := List.cons.inj hrest
        rfl
    rw [hhead] at he
    obtain rfl := Option.some.inj he
    exact hc
  · intro e he
    rw [List.getLast?_append, List.getLast?_singleton, Option.some_or] at he
    obtain rfl := Option.some.inj he
    exact hd

end Text

end ColumnFormula
