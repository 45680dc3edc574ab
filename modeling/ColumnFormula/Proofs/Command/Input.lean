import ColumnFormula.Proofs.Command.Output
import ColumnFormula.Proofs.Command.Request

/-!
# An expression on the input

An expression that is read from the input means what it means behind the separator
(`run_tokenize_input`): the options alone decide how it is shown, line controls at its end are not seen,
and no input that is not in UTF-8 is shown at all.  An expression that is given leaves the input alone.
-/

namespace ColumnFormula.Command

open Render (Options)

/-! ## The input as a text -/

theorem fromUTF8?_toUTF8 (text : String) : String.fromUTF8? text.toUTF8 = some text :=
  dif_pos text.isValidUTF8

theorem fromUTF8?_eq_none {bytes : ByteArray} (h : ∀ text : String, bytes ≠ text.toUTF8) :
    String.fromUTF8? bytes = none :=
  dif_neg fun hvalid => h (String.fromUTF8 bytes hvalid) rfl

theorem expressionFrom_toUTF8 (text : String) :
    expressionFrom (some text.toUTF8) none = .ok (some text) := by
  rw [expressionFrom, fromUTF8?_toUTF8]

theorem expressionFrom_eq_error {bytes : ByteArray} (h : ∀ text : String, bytes ≠ text.toUTF8) :
    expressionFrom (some bytes) none = .error .notText := by
  rw [expressionFrom, fromUTF8?_eq_none h]

/-! ## How a run ends -/

section Run

variable {words : List String} {options : Options}

/-- The end of a run that shows an expression. -/
def Outcome.shown (options : Options) (text : String) : Outcome :=
  ⟨0, endLine (Render.expression options text), none⟩

theorem run_of_expressionFrom {given : Option String} {input : Option ByteArray} {text : String}
    (h : Request.ofWords? ("tokenize" :: words) = some (.tokenize given options))
    (htext : expressionFrom input given = .ok (some text)) :
    run ("tokenize" :: words) input = .shown options text := by
  rw [run_of_request h, Request.answer, htext]
  rfl

/-- Behind the options and the separator, a word is the expression. -/
theorem ofWords?_separated
    (h : Request.ofWords? ("tokenize" :: words) = some (.tokenize none options)) (text : String) :
    Request.ofWords? ("tokenize" :: (ahead words ++ [separator, text])) =
      some (.tokenize (some text) options) := by
  obtain ⟨all, hall, hasked⟩ := ofWords?_tokenize_eq_some_iff.1 h
  obtain ⟨items, behind, hitems, rfl, -⟩ := hall.ahead
  have hoperands := (tokenizeOf?_eq_some_iff.1 hasked).1
  rw [single?_eq_some_none_iff, operandsOf_append, operandsOf_map_operand,
    List.append_eq_nil_iff] at hoperands
  obtain ⟨-, rfl⟩ := hoperands
  rw [List.map_nil, List.append_nil] at hasked
  exact ofWords?_tokenize_eq_some_iff.2
    ⟨_, hitems.append (ahead_cases words).1 (.separated [text]), tokenizeOf?_operand hasked text⟩

/-- A run that succeeds shows an expression, given or from the input. -/
theorem exists_shown_of_run {input : Option ByteArray}
    (h : (run ("tokenize" :: words) input).code = 0) :
    ∃ given options text,
      Request.ofWords? ("tokenize" :: words) = some (.tokenize given options) ∧
      expressionFrom input given = .ok (some text) ∧
      run ("tokenize" :: words) input = .shown options text := by
  cases hrequest : Request.ofWords? ("tokenize" :: words) with
  | none =>
    rw [run, hrequest] at h
    cases h
  | some request =>
    obtain ⟨given, options, rfl⟩ := exists_tokenize_of_ofWords? hrequest
    rcases hfrom : expressionFrom input given with failure | _ | text
    · rw [run_of_request hrequest, Request.answer, hfrom] at h
      cases h
    · rw [run_of_request hrequest, Request.answer, hfrom] at h
      cases h
    · exact ⟨given, options, text, rfl, hfrom, run_of_expressionFrom hrequest hfrom⟩

end Run

end ColumnFormula.Command

namespace ColumnFormula

open Command
open Text (isLineControl)

/-- An expression that comes from the input is shown as if it stood behind the options and the
separator, and line controls at its end change nothing; an input that is not in UTF-8 fails.  An
expression among the words is shown whatever the input is.  What is shown ends with one line feed, put
there only if the rendering has none at its end. -/
theorem run_tokenize_input (words : List String) :
    (∀ options, Request.ofWords? ("tokenize" :: words) = some (.tokenize none options) →
      (∀ text : String,
        (run ("tokenize" :: words) (some text.toUTF8)).code = 0 ∧
        (∀ held, run ("tokenize" :: words) (some text.toUTF8) =
          run ("tokenize" :: (ahead words ++ [separator, text])) held) ∧
        ∀ controls : String, (∀ c ∈ controls.toList, isLineControl c = true) →
          run ("tokenize" :: words) (some (text ++ controls).toUTF8) =
            run ("tokenize" :: words) (some text.toUTF8)) ∧
      ∀ bytes : ByteArray, (∀ text : String, bytes ≠ text.toUTF8) →
        run ("tokenize" :: words) (some bytes) =
          ⟨1, "", some "IO error: stream did not contain valid UTF-8\n"⟩) ∧
    (∀ expression options,
      Request.ofWords? ("tokenize" :: words) = some (.tokenize (some expression) options) →
        ∀ held held', run ("tokenize" :: words) held = run ("tokenize" :: words) held') ∧
    ∀ held, (run ("tokenize" :: words) held).code = 0 →
      ∃ given options text body,
        Request.ofWords? ("tokenize" :: words) = some (.tokenize given options) ∧
        expressionFrom held given = .ok (some text) ∧
        (run ("tokenize" :: words) held).stdout = body ++ "\n" ∧
        body.toList.getLast? ≠ some '\n' ∧
        (Render.expression options text = body ∨
          Render.expression options text = body ++ "\n") := by
  refine ⟨fun options hrequest => ⟨fun text => ?_, fun bytes hbytes => ?_⟩,
    fun expression options hrequest held held' => ?_, fun held hcode => ?_⟩
  · have hshown := run_of_expressionFrom hrequest (expressionFrom_toUTF8 text)
    refine ⟨by rw [hshown]; rfl, fun held => ?_, fun controls hcontrols => ?_⟩
    · exact hshown.trans (run_of_expressionFrom (ofWords?_separated hrequest text) rfl).symm
    · rw [hshown, run_of_expressionFrom hrequest (expressionFrom_toUTF8 _), Outcome.shown,
        Render.expression_append options text hcontrols]
      rfl
  · rw [run_of_request hrequest, Request.answer, expressionFrom_eq_error hbytes]
    rfl
  · exact (run_of_expressionFrom hrequest rfl).trans (run_of_expressionFrom hrequest rfl).symm
  · obtain ⟨given, options, text, hrequest, hfrom, hrun⟩ := exists_shown_of_run hcode
    obtain ⟨body, hbody, hlast, hrendered⟩ := exists_endLine_expression options text
    exact ⟨given, options, text, body, hrequest, hfrom, by rw [hrun]; exact hbody, hlast, hrendered⟩

/-- A name that is cut off, from the input with a line feed behind it and as a word; a byte that is
in no text. -/
theorem run_tokenize_input_cut :
    run ["tokenize", "-pf", "text"] (some ("[a" ++ "\n").toUTF8) =
        run ["tokenize", "-pf", "text", "--", "[a"] none ∧
      run ["tokenize", "-pf", "text"] (some ⟨#[0xFF]⟩) =
        ⟨1, "", some "IO error: stream did not contain valid UTF-8\n"⟩ ∧
      run ["tokenize", "[a"] (some ⟨#[0xFF]⟩) = run ["tokenize", "[a"] none ∧
      ∃ body, (run ["tokenize", "[a"] none).stdout = body ++ "\n" ∧
        body.toList.getLast? ≠ some '\n' := by
  have hinput := (run_tokenize_input ["-pf", "text"]).1 ⟨0, .text, true, false⟩ rfl
  have hgiven := (run_tokenize_input ["[a"]).2
  obtain ⟨-, hword, hcontrols⟩ := hinput.1 "[a"
  refine ⟨(hcontrols "\n" (List.forall_mem_singleton.2 rfl)).trans (hword none), hinput.2 _ ?_, ?_, ?_⟩
  · intro text htext
    have hvalid := text.isValidUTF8
    rw [String.toUTF8] at htext
    rw [← htext] at hvalid
    revert hvalid
    decide
  · exact hgiven.1 "[a" ⟨0, .json, false, false⟩ rfl _ _
  · obtain ⟨given, options, text, body, -, -, hbody, hlast, -⟩ := hgiven.2 none rfl
    exact ⟨body, hbody, hlast⟩

end ColumnFormula
