import ColumnFormula.Command.Outcome
import ColumnFormula.Proofs.Command.Word

/-!
# What items ask for

A request is read from the items among the words, each part of it from the items that concern it
(`tokenizeOf?_eq_some_iff`).  So the order of the items does not matter (`tokenizeOf?_perm`), and items
that say an option more than once, or have more than one operand, are no request.
-/

namespace ColumnFormula.Command

open Render (Options)

/-! ## The only element -/

section Single

variable {α : Type} {as bs : List α}

theorem single?_eq_none_iff : single? as = none ↔ 2 ≤ as.length := by
  rcases as with _ | ⟨a, _ | ⟨b, as⟩⟩ <;> simp [single?]

theorem single?_eq_some_none_iff : single? as = some none ↔ as = [] := by
  rcases as with _ | ⟨a, _ | ⟨b, as⟩⟩ <;> simp [single?]

theorem single?_eq_some_some_iff {a : α} : single? as = some (some a) ↔ as = [a] := by
  rcases as with _ | ⟨b, _ | ⟨c, as⟩⟩ <;> simp [single?]

theorem single?_perm (h : as.Perm bs) : single? as = single? bs := by
  rcases ha : single? as with _ | (_ | a)
  · rw [single?_eq_none_iff, h.length_eq] at ha
    exact (single?_eq_none_iff.2 ha).symm
  · rw [single?_eq_some_none_iff] at ha
    subst ha
    exact (single?_eq_some_none_iff.2 h.nil_eq.symm).symm
  · rw [single?_eq_some_some_iff] at ha
    subst ha
    exact (single?_eq_some_some_iff.2 (List.singleton_perm.1 h).symm).symm

end Single

/-! ## The parts of a request -/

section Parts

variable {items more : List Item}

theorem operandsOf_append : operandsOf (items ++ more) = operandsOf items ++ operandsOf more :=
  List.filterMap_append

theorem operandsOf_map_operand (words : List String) :
    operandsOf (words.map .operand) = words := by
  rw [operandsOf, List.filterMap_map]
  exact List.filterMap_some

theorem valuesOf_append {setting : Setting} :
    valuesOf setting (items ++ more) = valuesOf setting items ++ valuesOf setting more :=
  List.filterMap_append

/-- A request is what each of its parts is. -/
theorem tokenizeOf?_eq_some_iff {expression : Option String} {options : Options} :
    tokenizeOf? items = some (expression, options) ↔
      single? (operandsOf items) = some expression ∧
      settingOf? .offset readOffset Options.default.offset items = some options.offset ∧
      settingOf? .format readFormat Options.default.format items = some options.format ∧
      flagOf? .pretty items = some options.pretty ∧
      flagOf? .highlights items = some options.highlights := by
  obtain ⟨offset, format, pretty, highlights⟩ := options
  simp only [tokenizeOf?, Option.bind_eq_bind, Option.bind_eq_some_iff, Option.pure_def,
    Option.some.injEq, Prod.mk.injEq, Options.mk.injEq]
  constructor
  · rintro ⟨e, he, o, ho, f, hf, p, hp, h, hh, rfl, rfl, rfl, rfl, rfl⟩
    exact ⟨he, ho, hf, hp, hh⟩
  · rintro ⟨he, ho, hf, hp, hh⟩
    exact ⟨_, he, _, ho, _, hf, _, hp, _, hh, rfl, rfl, rfl, rfl, rfl⟩

theorem tokenizeOf?_perm (h : items.Perm more) : tokenizeOf? items = tokenizeOf? more := by
  have hoperands : single? (operandsOf items) = single? (operandsOf more) :=
    single?_perm (h.filterMap _)
  have hsetting (setting : Setting) :
      single? (valuesOf setting items) = single? (valuesOf setting more) :=
    single?_perm (h.filterMap _)
  have hflag (flag : Flag) : flagOf? flag items = flagOf? flag more := by
    rw [flagOf?, flagOf?, single?_perm (h.filter _)]
  simp only [tokenizeOf?, settingOf?, hoperands, hsetting, hflag]

/-- An operand behind items that have none is the expression. -/
theorem tokenizeOf?_operand {options : Options} (h : tokenizeOf? items = some (none, options))
    (text : String) : tokenizeOf? (items ++ [.operand text]) = some (some text, options) := by
  rw [tokenizeOf?_eq_some_iff] at h ⊢
  obtain ⟨hoperands, hoffset, hformat, hpretty, hhighlights⟩ := h
  rw [single?_eq_some_none_iff] at hoperands
  have hvalues (setting : Setting) :
      valuesOf setting (items ++ [.operand text]) = valuesOf setting items := by
    rw [valuesOf_append]
    exact List.append_nil _
  have hflags (flag : Flag) : flagOf? flag (items ++ [.operand text]) = flagOf? flag items := by
    have hsaid : (items ++ [Item.operand text]).filter (· == Item.flag flag) =
        items.filter (· == Item.flag flag) := by
      rw [List.filter_append]
      exact List.append_nil _
    rw [flagOf?, hsaid, flagOf?]
  refine ⟨?_, ?_, ?_, (hflags _).trans hpretty, (hflags _).trans hhighlights⟩
  · rw [operandsOf_append, hoperands]
    rfl
  · rw [settingOf?, hvalues]
    exact hoffset
  · rw [settingOf?, hvalues]
    exact hformat

end Parts

/-! ## The words behind `tokenize` -/

theorem ofWords?_tokenize (words : List String) :
    Request.ofWords? ("tokenize" :: words) =
      (items? words >>= tokenizeOf?).map fun (expression, options) => .tokenize expression options :=
  rfl

theorem ofWords?_tokenize_eq_some_iff {words : List String} {expression : Option String}
    {options : Options} :
    Request.ofWords? ("tokenize" :: words) = some (.tokenize expression options) ↔
      ∃ items, Sorts words items ∧ tokenizeOf? items = some (expression, options) := by
  simp only [ofWords?_tokenize, Option.map_eq_some_iff, Option.bind_eq_bind,
    Option.bind_eq_some_iff, sorts_iff]
  constructor
  · rintro ⟨⟨e, o⟩, ⟨items, hitems, hasked⟩, heq⟩
    cases heq
    exact ⟨items, hitems, hasked⟩
  · rintro ⟨items, hitems, hasked⟩
    exact ⟨_, ⟨items, hitems, hasked⟩, rfl⟩

/-- Behind `tokenize` stands a request to tokenize, or none. -/
theorem exists_tokenize_of_ofWords? {words : List String} {request : Request}
    (h : Request.ofWords? ("tokenize" :: words) = some request) :
    ∃ expression options, request = .tokenize expression options := by
  rw [ofWords?_tokenize, Option.map_eq_some_iff] at h
  obtain ⟨⟨expression, options⟩, -, rfl⟩ := h
  exact ⟨expression, options, rfl⟩

theorem run_of_request {words : List String} {request : Request}
    (h : Request.ofWords? words = some request) (input : Option ByteArray) :
    run words input = .ofAnswer (request.answer input) := by
  rw [run, h]

end ColumnFormula.Command
