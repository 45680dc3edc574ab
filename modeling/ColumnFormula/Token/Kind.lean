/-!
# Kinds of tokens

The twenty-one kinds that the token stream of a column formula can name.  Seventeen of them come out
of a scan; the two-character comparisons and the group of a function's arguments are there for
parsers that work on the stream.  A kind is written under one fixed name, and read back from that
name or, for the end of the input, from its short form `EOF`.
-/

namespace ColumnFormula.Token

/-- What a token is. -/
inductive Kind
  | endOfInput
  | number
  | string
  | openParenthesis
  | closeParenthesis
  | openSquareBracket
  | closeSquareBracket
  | argumentSeparator
  | operatorAdd
  | operatorSub
  | operatorMul
  | operatorDiv
  | operatorGt
  | operatorLt
  | operatorEq
  | operatorNeq
  | operatorGte
  | operatorLte
  | column
  | function
  | functionArguments
  deriving DecidableEq, Repr, Inhabited

namespace Kind

/-- Every kind, in the order in which the kinds are listed to a reader. -/
def all : List Kind :=
  [endOfInput, number, openParenthesis, closeParenthesis, operatorAdd, operatorSub, operatorMul,
    operatorDiv, operatorGt, operatorLt, operatorEq, operatorNeq, operatorGte, operatorLte,
    openSquareBracket, closeSquareBracket, column, function, argumentSeparator, functionArguments,
    string]

/-- The name under which a kind is written. -/
def name : Kind → String
  | endOfInput => "END_OF_INPUT"
  | number => "NUMBER"
  | string => "STRING"
  | openParenthesis => "OPEN_PARENTHESIS"
  | closeParenthesis => "CLOSE_PARENTHESIS"
  | openSquareBracket => "OPEN_SQUARE_BRACKET"
  | closeSquareBracket => "CLOSE_SQUARE_BRACKET"
  | argumentSeparator => "ARGUMENT_SEPARATOR"
  | operatorAdd => "OPERATOR_ADD"
  | operatorSub => "OPERATOR_SUB"
  | operatorMul => "OPERATOR_MUL"
  | operatorDiv => "OPERATOR_DIV"
  | operatorGt => "OPERATOR_GT"
  | operatorLt => "OPERATOR_LT"
  | operatorEq => "OPERATOR_EQ"
  | operatorNeq => "OPERATOR_NEQ"
  | operatorGte => "OPERATOR_GTE"
  | operatorLte => "OPERATOR_LTE"
  | column => "COLUMN"
  | function => "FUNCTION"
  | functionArguments => "FUNCTION_ARGUMENTS"

/-- A second name of the end of the input, read but never written. -/
def endOfInputAlias : String := "EOF"

/-- The kind that a name stands for. -/
def ofName? (name : String) : Option Kind :=
  if name = endOfInputAlias then some endOfInput
  else all.find? fun kind => kind.name == name

/-- Why a name could not be read as a kind. -/
inductive NameError
  | unknown (name : String)
  deriving DecidableEq, Repr

/-- The error as it is told to the reader. -/
def NameError.message : NameError → String
  | unknown name => "unknown token kind: '" ++ name ++ "'"

/-- Reads a name, or says that no kind bears it. -/
def ofName (name : String) : Except NameError Kind :=
  match ofName? name with
  | some kind => .ok kind
  | none => .error (.unknown name)

theorem mem_all (kind : Kind) : kind ∈ all := by
  cases kind <;> decide

theorem nodup_all : all.Nodup := by decide

@[simp] theorem ofName?_name (kind : Kind) : ofName? kind.name = some kind := by
  cases kind <;> decide

theorem name_injective {a b : Kind} (h : a.name = b.name) : a = b := by
  have := ofName?_name a
  rw [h, ofName?_name] at this
  exact (Option.some.inj this).symm

/-- Only a kind's own name and the short form of the end of the input are read. -/
theorem ofName?_eq_some_iff {text : String} {kind : Kind} :
    ofName? text = some kind ↔
      text = kind.name ∨ (text = endOfInputAlias ∧ kind = endOfInput) := by
  constructor
  · intro h
    unfold ofName? at h
    split at h
    · exact Or.inr ⟨‹_›, (Option.some.inj h).symm⟩
    · have := List.find?_some h
      exact Or.inl (eq_of_beq this).symm
  · rintro (rfl | ⟨rfl, rfl⟩)
    · exact ofName?_name kind
    · rfl

end Kind

end ColumnFormula.Token
