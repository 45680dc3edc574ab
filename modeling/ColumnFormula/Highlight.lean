import ColumnFormula.Token.Basic

/-!
# Highlights

Columns and functions are the tokens that know where they stand, so they are what an editor can mark
in an expression.  A highlight is the place of one of them with its label.
-/

namespace ColumnFormula

/-- What is marked. -/
inductive Highlight.Kind
  | column
  | function
  deriving DecidableEq, Repr, Inhabited

/-- A marked stretch of an expression.  The label is the function's name or the column as one text. -/
structure Highlight where
  kind : Highlight.Kind
  span : Span
  label : String
  deriving DecidableEq, Repr, Inhabited

namespace Span

/-- The characters of a text that the span covers, if it lies within the text. -/
def slice? (span : Span) (text : List Char) : Option (List Char) :=
  if span.start ≤ span.stop ∧ span.stop ≤ text.length then
    some ((text.drop span.start).take (span.stop - span.start))
  else none

end Span

namespace Highlight

/-- Both kinds. -/
def Kind.all : List Kind := [.column, .function]

/-- The name of the kind in a document. -/
def Kind.name : Kind → String
  | .column => "column"
  | .function => "function"

/-- The name of the kind at the head of a line. -/
def Kind.title : Kind → String
  | .column => "Column"
  | .function => "Function"

/-- The kind that a name stands for. -/
def Kind.ofName? (name : String) : Option Kind :=
  Kind.all.find? fun kind => kind.name == name

@[simp] theorem Kind.ofName?_name (kind : Kind) : ofName? kind.name = some kind := by
  cases kind <;> decide

/-- The highlight of a token: of a column that refers to one or a function that has a name, if its
place is known. -/
def ofToken? (t : Token) : Option Highlight :=
  t.span? >>= fun span =>
    match t.kind with
    | .column => t.column?.map fun column => ⟨.column, span, column.display⟩
    | .function => t.text?.map fun name => ⟨.function, span, name⟩
    | _ => none

/-- The highlights of a stream, in its order. -/
def ofTokens (tokens : List Token) : List Highlight :=
  tokens.filterMap ofToken?

/-- The text that a highlight marks in an expression, if it lies within it. -/
def slice? (h : Highlight) (expression : String) : Option String :=
  (h.span.slice? expression.toList).map String.ofList

@[simp] theorem ofToken?_ofColumn (column : ColumnRef) (span : Span) :
    ofToken? (.ofColumn column span) = some ⟨.column, span, column.display⟩ := rfl

@[simp] theorem ofToken?_ofFunction (name : String) (span : Span) :
    ofToken? (.ofFunction name span) = some ⟨.function, span, name⟩ := rfl

end Highlight

end ColumnFormula
