import ColumnFormula.Token.ColumnRef
import ColumnFormula.Token.Kind

/-!
# Tokens

A token is a classified piece of an expression.  It may carry a value, a text or a column reference,
and it may say where in the expression its text stands.  The type puts no bond between the three, for
a stream that is read from a document may combine them in any way; what a scan produces is narrower.
-/

namespace ColumnFormula

/-- A stretch of an expression, by the positions of its first character and of the one behind its
last.  Positions count characters. -/
structure Span where
  start : Nat
  stop : Nat
  deriving DecidableEq, Repr, Inhabited

/-- What a token carries. -/
inductive Token.Value
  | text (text : String)
  | column (column : ColumnRef)
  deriving DecidableEq, Repr

/-- A classified piece of an expression. -/
structure Token where
  kind : Token.Kind
  value : Option Token.Value
  start : Option Nat
  stop : Option Nat
  deriving DecidableEq, Repr, Inhabited

namespace Token

/-- A token with neither a value nor a place. -/
def bare (kind : Kind) : Token :=
  ⟨kind, none, none, none⟩

/-- The token that ends every stream. -/
def endOfInput : Token :=
  bare .endOfInput

/-- A token that carries a text. -/
def ofText (kind : Kind) (text : String) : Token :=
  ⟨kind, some (.text text), none, none⟩

/-- A column that stands at the given place. -/
def ofColumn (column : ColumnRef) (span : Span) : Token :=
  ⟨.column, some (.column column), some span.start, some span.stop⟩

/-- A function whose name stands at the given place. -/
def ofFunction (name : String) (span : Span) : Token :=
  ⟨.function, some (.text name), some span.start, some span.stop⟩

/-- Whether the token ends a stream. -/
def isEndOfInput (t : Token) : Bool :=
  t.kind == .endOfInput

/-- The text that the token carries, if it carries one. -/
def text? (t : Token) : Option String :=
  match t.value with
  | some (.text text) => some text
  | _ => none

/-- The column that the token refers to, if it refers to one. -/
def column? (t : Token) : Option ColumnRef :=
  match t.value with
  | some (.column column) => some column
  | _ => none

/-- Where the token stands, if both of its ends are known. -/
def span? (t : Token) : Option Span :=
  match t.start, t.stop with
  | some start, some stop => some ⟨start, stop⟩
  | _, _ => none

@[simp] theorem span?_bare (kind : Kind) : (bare kind).span? = none := rfl

@[simp] theorem span?_ofText (kind : Kind) (text : String) : (ofText kind text).span? = none := rfl

@[simp] theorem span?_ofColumn (column : ColumnRef) (span : Span) :
    (ofColumn column span).span? = some span := rfl

@[simp] theorem span?_ofFunction (name : String) (span : Span) :
    (ofFunction name span).span? = some span := rfl

end Token

end ColumnFormula
