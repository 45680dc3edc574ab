import ColumnFormula.Highlight
import ColumnFormula.Proofs.Scan.Piece
import ColumnFormula.Proofs.Token.ColumnRef
import Mathlib.Data.List.Forall2

/-!
# What highlights mark

An expression is often only a part of what its author sees: there is text in front of it and behind it,
and line controls in it that the scan does not look at.  The highlights of its tokens are still places
in that whole text.  Each marks the stretch that its token was made of, from the first character of it
that was scanned to the last, and the label can be read off what it marks.
-/

namespace ColumnFormula

open Scan Text

/-! ## The label of a column -/

namespace ColumnRef

/-- The label of a column is the text between the brackets, without a point at its end if there is no
other one in it. -/
def IsLabel (text label : List Char) : Prop :=
  if text.idxOf '.' + 1 = text.length then text = label ++ ['.'] ∧ '.' ∉ label else text = label

theorem isLabel_display (text : List Char) : IsLabel text (ofChars text).display.toList := by
  rw [IsLabel, toList_display_ofChars]
  split
  · rename_i hend
    -- Where the first point is the last character, nothing in front of it is one.
    rcases point_cases text with hnot | ⟨table, hnot, rfl | ⟨c, column, rfl⟩⟩
    · rw [List.idxOf_eq_length hnot] at hend
      exact absurd hend (Nat.succ_ne_self _)
    · rw [List.dropLast_concat]
      exact ⟨rfl, hnot⟩
    · rw [List.idxOf_append_of_notMem hnot, List.idxOf_cons_self, List.length_append] at hend
      simp at hend
  · rfl

end ColumnRef

/-! ## Slices -/

theorem Span.slice?_append (before marked after : List Char) :
    (⟨before.length, before.length + marked.length⟩ : Span).slice? (before ++ marked ++ after) =
      some marked := by
  rw [slice?, if_pos ⟨Nat.le_add_right _ _, by simp⟩, Nat.add_sub_cancel_left, List.append_assoc,
    List.drop_left, List.take_left]

/-- A stretch of the text without line controls is found at its place in the whole text, which is the
expression with text in front of it and behind it. -/
theorem exists_slice {expression : String} {front own back : List Char}
    (h : strip expression.toList = front ++ own ++ back) (hne : own ≠ []) (before after : String) :
    ∃ left marked right, expression.toList = left ++ marked ++ right ∧
      strip left = front ∧ strip marked = own ∧ strip right = back ∧
      sourceSpan expression.toList before.length ⟨front.length, front.length + own.length⟩ =
        ⟨before.length + left.length, before.length + left.length + marked.length⟩ ∧
      (⟨before.length + left.length, before.length + left.length + marked.length⟩ : Span).slice?
        (before ++ expression ++ after).toList = some marked ∧
      (∀ c ∈ marked.head?, isLineControl c = false) ∧
      (∀ c ∈ marked.getLast?, isLineControl c = false) := by
  obtain ⟨left, marked, right, hsplit, hleft, hmarked, hright, hstart, hstop, hhead, hlast⟩ :=
    strip_slice h hne
  refine ⟨left, marked, right, hsplit, hleft, hmarked, hright, ?_, ?_, hhead, hlast⟩
  · rw [sourceSpan, ← hstart, Nat.add_assoc, ← hstop, Nat.add_assoc]
  · have hwhole : (before ++ expression ++ after).toList =
        (before.toList ++ left) ++ marked ++ (right ++ after.toList) := by
      simp [hsplit]
    have hlength : before.length + left.length = (before.toList ++ left).length := by
      rw [List.length_append, String.length_toList]
    rw [hwhole, hlength]
    exact Span.slice?_append _ _ _

/-! ## One highlight for each function and column -/

namespace Highlight

/-- The highlight of a token, in an expression with `before` in front of it and `after` behind it,
marks a stretch of the expression that without its line controls is the source of the token. -/
structure Marks (before expression after : String) (ps : List Piece) (token : Token) (h : Highlight)
    (left marked right : List Char) : Prop where
  split : expression.toList = left ++ marked ++ right
  place : h.span = ⟨before.length + left.length, before.length + left.length + marked.length⟩
  slice : h.slice? (before ++ expression ++ after) = some (String.ofList marked)
  ne_nil : marked ≠ []
  head : ∀ c ∈ marked.head?, isLineControl c = false
  last : ∀ c ∈ marked.getLast?, isLineControl c = false
  source : ∃ found, Piece.lexeme (strip marked) found ∈ ps ∧
    token = found.relocate (sourceSpan expression.toList before.length)
  label : token.kind = .function ∧ h.kind = .function ∧ h.label = String.ofList (strip marked) ∨
    token.kind = .column ∧ h.kind = .column ∧
      BracketText (strip left) (strip marked) (strip right) ∧
      ColumnRef.IsLabel (strip marked) h.label.toList

/-- A token that is marked has one highlight, and one that is not has none. -/
theorem marks_or_none {before expression after : String} {ps : List Piece} {source : List Char}
    {token : Token} (hp : Piece.lexeme source token ∈ ps) (hne : source ≠ [])
    (hin : TokenIn 0 (strip expression.toList) source token) :
    let moved := token.relocate (sourceSpan expression.toList before.length)
    (moved.isMarked = false → ofToken? moved = none) ∧
      (moved.isMarked = true → ∃ h, ofToken? moved = some h ∧ moved.span? = some h.span ∧
        ∃ left marked right, Marks before expression after ps moved h left marked right) := by
  intro moved
  obtain ⟨front, back, hsplit, hat⟩ := hin
  rw [Nat.zero_add] at hat
  obtain ⟨left, marked, right, htext, rfl, rfl, rfl, hplace, hslice, hhead, hlast⟩ :=
    exists_slice hsplit hne before after
  have hnonempty : marked ≠ [] := by
    rintro rfl
    exact hne rfl
  have hmark : ∀ h : Highlight,
      h.span = ⟨before.length + left.length, before.length + left.length + marked.length⟩ →
      h.slice? (before ++ expression ++ after) = some (String.ofList marked) := by
    intro h hplaced
    rw [slice?, hplaced, hslice]
    rfl
  cases hat with
  | placeless hspan hunmarked =>
    constructor
    · intro _
      rw [ofToken?, Token.span?_relocate, hspan]
      rfl
    · intro hmarked
      rw [Token.isMarked_relocate, hunmarked] at hmarked
      exact absurd hmarked Bool.false_ne_true
  | function =>
    constructor
    · intro h
      exact absurd h.symm Bool.false_ne_true
    · intro _
      refine ⟨_, rfl, rfl, left, marked, right, ?_⟩
      exact ⟨htext, hplace, hmark _ hplace, hnonempty, hhead, hlast, ⟨_, hp, rfl⟩,
        Or.inl ⟨rfl, rfl, rfl⟩⟩
  | column h =>
    constructor
    · intro h
      exact absurd h.symm Bool.false_ne_true
    · intro _
      refine ⟨_, rfl, rfl, left, marked, right, ?_⟩
      exact ⟨htext, hplace, hmark _ hplace, hnonempty, hhead, hlast, ⟨_, hp, rfl⟩,
        Or.inr ⟨rfl, rfl, h, ColumnRef.isLabel_display _⟩⟩

end Highlight

/-- Pairs each element that passes the test with what it is mapped to. -/
theorem forall₂_filter_filterMap {α β : Type} {p : α → Bool} {f : α → Option β} {R : α → β → Prop}
    {l : List α} (h : ∀ a ∈ l, (p a = false → f a = none) ∧
      (p a = true → ∃ b, f a = some b ∧ R a b)) :
    List.Forall₂ R (l.filter p) (l.filterMap f) := by
  induction l with
  | nil => exact .nil
  | cons a l ih =>
    obtain ⟨⟨hnone, hsome⟩, hl⟩ := List.forall_mem_cons.1 h
    cases hp : p a with
    | false =>
      rw [List.filter_cons_of_neg (by simp [hp]), List.filterMap_cons_none (hnone hp)]
      exact ih hl
    | true =>
      obtain ⟨b, hb, hR⟩ := hsome hp
      rw [List.filter_cons_of_pos hp, List.filterMap_cons_some hb]
      exact .cons hR (ih hl)

/-- The highlights of an expression are, one for each and in order, those of its functions and
columns, if words hold all positions up to its end.  Each marks in the whole text a stretch of the
expression that begins and ends with characters that were scanned.  Without its line controls the
stretch is the function's name, or all that stands between the column's brackets, and the label tells
it. -/
theorem highlights_mark {before expression : String}
    (hfits : before.length + expression.length < positionLimit) (after : String) :
    let tokens := (tokenize expression before.length).tokens
    ∃ ps, (∀ qs, Tiling false 0 (strip expression.toList) qs ↔ qs = ps) ∧
      tokens = (ps.filterMap Piece.token?).map
        (Token.relocate (sourceSpan expression.toList before.length)) ++ [Token.endOfInput] ∧
      List.Forall₂ (fun token h => token.span? = some h.span ∧
          ∃ left marked right, Highlight.Marks before expression after ps token h left marked right)
        (tokens.filter Token.isMarked) (Highlight.ofTokens tokens) := by
  intro tokens
  obtain ⟨ps, htiles, htokens, _⟩ := exists_tiling_tokenize hfits
  have htiling : Tiling false 0 (strip expression.toList) ps := (htiles ps).2 rfl
  refine ⟨ps, htiles, htokens, ?_⟩
  apply forall₂_filter_filterMap
  intro token htoken
  rw [show tokens = _ from htokens, List.mem_append] at htoken
  rcases htoken with htoken | htoken
  · obtain ⟨found, hfound, rfl⟩ := List.mem_map.1 htoken
    obtain ⟨p, hp, hpiece⟩ := List.mem_filterMap.1 hfound
    cases p with
    | lexeme source t =>
      obtain rfl : t = found := Option.some.inj hpiece
      exact Highlight.marks_or_none hp (htiling.source_ne_nil _ hp) (htiling.tokenIn hp)
    | _ => cases hpiece
  · rw [List.mem_singleton.1 htoken]
    constructor
    · intro _
      rfl
    · intro h
      exact absurd h Bool.false_ne_true

/-- A function and a column with a point at its end and a line feed in it, in the middle of a text. -/
theorem highlights_mark_point :
    "x = ".length + "f([a\n.])".length < positionLimit ∧
      (Highlight.ofTokens (tokenize "f([a\n.])" "x = ".length).tokens).map (·.label) = ["f", "a"] ∧
      ∃ ps, Tiling false 0 (strip "f([a\n.])".toList) ps ∧
        List.Forall₂ (fun token h => token.span? = some h.span ∧ ∃ left marked right,
            Highlight.Marks "x = " "f([a\n.])" " + y" ps token h left marked right)
          ((tokenize "f([a\n.])" "x = ".length).tokens.filter Token.isMarked)
          (Highlight.ofTokens (tokenize "f([a\n.])" "x = ".length).tokens) := by
  have hfits : "x = ".length + "f([a\n.])".length < positionLimit := by decide
  obtain ⟨ps, htiles, _, hmarks⟩ := highlights_mark hfits " + y"
  exact ⟨hfits, by decide +kernel, ps, (htiles ps).2 rfl, hmarks⟩

end ColumnFormula
