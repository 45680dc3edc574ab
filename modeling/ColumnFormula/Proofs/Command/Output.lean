import ColumnFormula.Command.Outcome
import ColumnFormula.Proofs.Render

/-!
# What is printed

Whatever the options, a rendering is a text that a single line feed ends, or that none ends: a document
ends with a bracket, and each line of a list has something in front of its line feed.  So a line feed
that is added where there is none is the only one at the end (`exists_endLine_expression`).  Line
controls behind an expression are not seen in what is rendered of it (`expression_append`).
-/

namespace ColumnFormula

open Scan Text

/-! ## Line controls behind an expression -/

/-- Line controls behind an expression leave its tokens where they are. -/
theorem tokens_tokenize_append (text : String) {controls : String}
    (h : ∀ c ∈ controls.toList, isLineControl c = true) (offset : Nat) :
    (tokenize (text ++ controls) offset).tokens = (tokenize text offset).tokens := by
  have hcontrols : strip controls.toList = [] := by
    rw [strip, List.filter_eq_nil_iff]
    intro c hc
    rw [h c hc]
    exact Bool.false_ne_true
  have hstrip : strip (text ++ controls).toList = strip text.toList := by
    rw [String.toList_append, strip_append, hcontrols, List.append_nil]
  rw [tokens_tokenize, tokens_tokenize, hstrip]
  refine congrArg (· ++ _) (List.map_congr_left fun token htoken => Token.relocate_congr ?_)
  intro span hspan
  obtain ⟨hlt, hle⟩ := span_of_mem_tokens htoken hspan
  have hstart : sourceIndex (text ++ controls).toList span.start =
      sourceIndex text.toList span.start := by
    rw [String.toList_append]
    exact sourceIndex_append_left _ (by omega)
  have hstop : sourceIndex (text ++ controls).toList (span.stop - 1) =
      sourceIndex text.toList (span.stop - 1) := by
    rw [String.toList_append]
    exact sourceIndex_append_left _ (by omega)
  rw [reportedSpan, reportedSpan, sourceSpan, sourceSpan, hstart, hstop]

namespace Render

theorem expression_append (options : Options) (text : String) {controls : String}
    (h : ∀ c ∈ controls.toList, isLineControl c = true) :
    expression options (text ++ controls) = expression options text := by
  rw [expression, expression, tokens_tokenize_append text h]

end Render

/-! ## How a rendering ends -/

/-- A text that no line feed ends, or exactly one. -/
def EndsLine (text : List Char) : Prop :=
  ∃ body, body.getLast? ≠ some '\n' ∧ (text = body ∨ text = body ++ ['\n'])

theorem endsLine_render_array (layout : Json.Layout) (items : List Json) :
    EndsLine ((Json.array items).render layout).toList := by
  have hlast : ((Json.array items).render layout).toList.getLast? = some ']' := by
    rw [Json.render, String.toList_ofList]
    cases items with
    | nil => rfl
    | cons item items =>
      rw [Json.print]
      exact List.getLast?_concat
  exact ⟨_, by rw [hlast]; decide, Or.inl rfl⟩

/-- The last line of a list ends with its line feed, and has something else in front of it. -/
theorem endsLine_lines {α : Type} {body : α → List Char} {as : List α}
    (h : ∀ a ∈ as, body a ≠ [] ∧ '\n' ∉ body a) :
    EndsLine (as.flatMap fun a => body a ++ ['\n']) := by
  rcases List.eq_nil_or_concat as with rfl | ⟨front, last, rfl⟩
  · exact ⟨[], by decide, Or.inl rfl⟩
  · obtain ⟨hne, hmem⟩ := h last (by simp)
    refine ⟨(front.flatMap fun a => body a ++ ['\n']) ++ body last, ?_, Or.inr (by simp)⟩
    rw [List.getLast?_append_of_ne_nil _ hne]
    exact fun hlast => hmem (List.mem_of_getLast? hlast)

theorem Token.body_ne_nil (t : Token) : t.body ≠ [] := by
  have hname : t.kind.name.toList ≠ [] := by
    cases t.kind <;> decide
  rw [body]
  exact List.append_ne_nil_of_left_ne_nil hname _

theorem Highlight.body_ne_nil (h : Highlight) : h.body ≠ [] := by
  rw [body]
  exact List.append_ne_nil_of_right_ne_nil _ (List.cons_ne_nil _ _)

theorem Render.endsLine_expression (options : Options) (text : String) :
    EndsLine (expression options text).toList := by
  have hlisted : ∀ t ∈ (tokenize text options.offset).tokens, t.IsListed :=
    Token.isListed_of_mem_tokenize
  rw [expression, stream]
  split
  · exact endsLine_render_array _ _
  · exact endsLine_render_array _ _
  · rw [Token.toList_lines]
    exact endsLine_lines fun t ht => ⟨t.body_ne_nil, (hlisted t ht).not_mem_body⟩
  · rw [Highlight.toList_lines]
    exact endsLine_lines fun h hh => ⟨h.body_ne_nil, Highlight.not_mem_body hlisted h hh⟩

namespace Command

/-- Exactly one line feed ends what is printed: that of the rendering, or one that is put behind it. -/
theorem exists_endLine_expression (options : Render.Options) (text : String) :
    ∃ body, endLine (Render.expression options text) = body ++ "\n" ∧
      body.toList.getLast? ≠ some '\n' ∧
      (Render.expression options text = body ∨ Render.expression options text = body ++ "\n") := by
  obtain ⟨body, hlast, hbody⟩ := Render.endsLine_expression options text
  refine ⟨String.ofList body, ?_, by rwa [String.toList_ofList], ?_⟩
  · rw [endLine]
    rcases hbody with hbody | hbody
    · rw [if_neg (by rwa [hbody]), ← hbody, String.ofList_toList]
    · rw [if_pos (by rw [hbody, List.getLast?_concat])]
      exact String.toList_inj.1 (by rw [hbody, String.toList_append, String.toList_ofList]; rfl)
  · refine hbody.imp (fun hbody => ?_) fun hbody => ?_
    · rw [← hbody, String.ofList_toList]
    · exact String.toList_inj.1 (by rw [hbody, String.toList_append, String.toList_ofList]; rfl)

end Command

end ColumnFormula
