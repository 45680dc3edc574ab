import ColumnFormula.Token.Kind

/-!
# Operators

The symbols of the operators and the kinds they stand for.  The table holds the two-character
comparisons for readers of the stream; a scan asks for one character at a time and therefore never
finds them.
-/

namespace ColumnFormula.Operator

open Token (Kind)

/-- Every operator: its symbol and its kind. -/
def table : List (String × Kind) :=
  [("+", .operatorAdd), ("-", .operatorSub), ("*", .operatorMul), ("/", .operatorDiv),
    (">", .operatorGt), ("<", .operatorLt), ("=", .operatorEq), ("!=", .operatorNeq),
    (">=", .operatorGte), ("<=", .operatorLte)]

/-- The kind of the operator with the given symbol. -/
def kind? (symbol : String) : Option Kind :=
  (table.find? fun entry => entry.1 == symbol).map (·.2)

/-- The kind of the operator whose symbol is a single character. -/
def kindOfChar? (c : Char) : Option Kind :=
  kind? (String.singleton c)

theorem kind?_eq_some_iff {symbol : String} {kind : Kind} :
    kind? symbol = some kind ↔ (symbol, kind) ∈ table := by
  constructor
  · intro h
    obtain ⟨entry, hfind, rfl⟩ := Option.map_eq_some_iff.1 h
    have hsym : entry.1 = symbol := by simpa using List.find?_some hfind
    subst hsym
    exact List.mem_of_find?_eq_some hfind
  · intro h
    simp only [table, List.mem_cons, Prod.mk.injEq, List.not_mem_nil, or_false] at h
    rcases h with ⟨rfl, rfl⟩ | ⟨rfl, rfl⟩ | ⟨rfl, rfl⟩ | ⟨rfl, rfl⟩ | ⟨rfl, rfl⟩ | ⟨rfl, rfl⟩ |
      ⟨rfl, rfl⟩ | ⟨rfl, rfl⟩ | ⟨rfl, rfl⟩ | ⟨rfl, rfl⟩ <;> decide

theorem singleton_eq_iff {c d : Char} : String.singleton c = String.singleton d ↔ c = d := by
  constructor
  · intro h
    have := congrArg String.toList h
    simpa using this
  · rintro rfl
    rfl

/-- A single character is an operator only if it is one of these seven. -/
theorem kindOfChar?_eq_some_iff {c : Char} {kind : Kind} :
    kindOfChar? c = some kind ↔
      (c, kind) ∈ [('+', Kind.operatorAdd), ('-', .operatorSub), ('*', .operatorMul),
        ('/', .operatorDiv), ('>', .operatorGt), ('<', .operatorLt), ('=', .operatorEq)] := by
  have two : ∀ a b : Char, String.singleton c ≠ String.ofList [a, b] := by
    intro a b h
    have := congrArg String.toList h
    simp at this
  have one : ∀ d : Char, String.singleton c = String.ofList [d] ↔ c = d := fun d => by
    rw [show String.ofList [d] = String.singleton d from rfl, singleton_eq_iff]
  rw [kindOfChar?, kind?_eq_some_iff]
  simp only [table, List.mem_cons, Prod.mk.injEq, List.not_mem_nil, or_false]
  rw [show ("+" : String) = String.ofList ['+'] from rfl,
    show ("-" : String) = String.ofList ['-'] from rfl,
    show ("*" : String) = String.ofList ['*'] from rfl,
    show ("/" : String) = String.ofList ['/'] from rfl,
    show (">" : String) = String.ofList ['>'] from rfl,
    show ("<" : String) = String.ofList ['<'] from rfl,
    show ("=" : String) = String.ofList ['='] from rfl,
    show ("!=" : String) = String.ofList ['!', '='] from rfl,
    show (">=" : String) = String.ofList ['>', '='] from rfl,
    show ("<=" : String) = String.ofList ['<', '='] from rfl]
  simp [one, two]

/-- The kinds of the operators that are a single character. -/
def charKinds : List Kind :=
  [.operatorAdd, .operatorSub, .operatorMul, .operatorDiv, .operatorGt, .operatorLt, .operatorEq]

theorem kind_mem_charKinds {c : Char} {kind : Kind} (h : kindOfChar? c = some kind) :
    kind ∈ charKinds :=
  List.mem_map_of_mem (f := (·.2)) (kindOfChar?_eq_some_iff.1 h)

end ColumnFormula.Operator
