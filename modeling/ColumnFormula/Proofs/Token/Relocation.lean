import ColumnFormula.Scan.Nested

/-!
# Tokens that are moved

Moving a token changes its place, if it has one, and nothing else of it.
-/

namespace ColumnFormula.Token

theorem relocate_of_none {t : Token} (h : t.span? = none) (move : Span → Span) :
    t.relocate move = t := by
  rw [relocate, h]

theorem relocate_of_some {t : Token} {span : Span} (h : t.span? = some span) (move : Span → Span) :
    t.relocate move = { t with start := some (move span).start, stop := some (move span).stop } := by
  rw [relocate, h]

@[simp] theorem kind_relocate (move : Span → Span) (t : Token) : (t.relocate move).kind = t.kind := by
  rw [relocate]
  split <;> rfl

@[simp] theorem value_relocate (move : Span → Span) (t : Token) :
    (t.relocate move).value = t.value := by
  rw [relocate]
  split <;> rfl

@[simp] theorem span?_relocate (move : Span → Span) (t : Token) :
    (t.relocate move).span? = t.span?.map move := by
  cases h : t.span? with
  | none => rw [relocate_of_none h, h]; rfl
  | some span => rw [relocate_of_some h]; rfl

@[simp] theorem relocate_relocate (f g : Span → Span) (t : Token) :
    (t.relocate f).relocate g = t.relocate (g ∘ f) := by
  cases h : t.span? with
  | none => rw [relocate_of_none h, relocate_of_none h, relocate_of_none h]
  | some span =>
    have hmoved : (t.relocate f).span? = some (f span) := by rw [span?_relocate, h]; rfl
    rw [relocate_of_some hmoved, relocate_of_some h, relocate_of_some h]
    rfl

/-- Two moves that agree on the place of a token move it alike. -/
theorem relocate_congr {f g : Span → Span} {t : Token}
    (h : ∀ span, t.span? = some span → f span = g span) : t.relocate f = t.relocate g := by
  cases hspan : t.span? with
  | none => rw [relocate_of_none hspan, relocate_of_none hspan]
  | some span => rw [relocate_of_some hspan, relocate_of_some hspan, h span hspan]

/-- A move that leaves the place of a token alone leaves the token alone. -/
theorem relocate_eq_self {move : Span → Span} {t : Token}
    (h : ∀ span, t.span? = some span → move span = span) : t.relocate move = t := by
  cases hspan : t.span? with
  | none => exact relocate_of_none hspan move
  | some span =>
    rw [relocate_of_some hspan, h span hspan]
    obtain ⟨kind, value, start, stop⟩ := t
    cases start <;> cases stop <;> simp [span?] at hspan
    rw [← hspan]

end ColumnFormula.Token
